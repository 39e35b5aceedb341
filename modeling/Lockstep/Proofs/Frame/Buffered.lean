import Lockstep.Frame.Buffered
import Lockstep.Proofs.Frame.Pieces

/- Buffers with cursors do what plain bytes do.

   1. However many writes a frame takes, they append its encoding to the tape, and a frame that is
      refused leaves the encoder as it was (`encode_eq`). So an encoder fills like its outbox
      (`encodeAll_eq`).
   2. Taking out what was read changes nothing of what is left (`reader_compact`), and the position moves
      over just those bytes that the reader takes (`map_next`). So a decoder gives what its reader gives,
      over any uses (`map_decode`). -/
namespace Lockstep
open Lockstep.Frame

/-! ## Writing -/

theorem Frame.encode_byte (k : Kind) : Word.uint8.encode k.byte = [k.byte] := by
  cases k <;> rfl

namespace Encoder

/-- From where the write cursor was stands what was written since. -/
theorem since_write (enc : Encoder) (data : List UInt8) :
    (enc.write data).since enc.tape.writePos = data := by
  rw [since, bytes_write, writePos_eq, List.drop_left]

/-- A frame is written as its encoding, or not at all. -/
theorem encode_eq (enc : Encoder) (f : Frame) :
    enc.encode f =
      match f.encode with
      | .error e => (.error e, enc)
      | .ok bytes => (.ok bytes, enc.write bytes) := by
  cases f with
  | events text =>
    by_cases hsize : maxPayload < text.utf8ByteSize
    · simp only [encode, Frame.encode, hsize, if_true]
    · have hwrites : ((enc.writeWord .uint8 Kind.events.byte).writeWord .uint32
          (UInt32.ofNat text.utf8ByteSize)).write (utf8 text) =
            enc.write (Kind.events.byte :: Word.uint32.encode (UInt32.ofNat text.utf8ByteSize) ++
              utf8 text) := by
        apply ext
        simp only [bytes_write, bytes_writeWord, encode_byte, List.append_assoc, List.cons_append,
          List.nil_append]
      simp only [encode, Frame.encode, hsize, if_false, hwrites, since_write]
  | swapRequest | swapNow => simp only [encode, Frame.encode, writeWord, encode_byte, since_write]

/-- An encoder gives what its outbox gives, and is filled like it. -/
theorem encodeAll_eq (enc : Encoder) (frames : List Frame) :
    (enc.encodeAll frames).map id outbox = enc.outbox.pushAll frames := by
  induction frames generalizing enc with
  | nil => rfl
  | cons f frames ih =>
    have hrest := ih (enc.encode f).2
    rw [encode_eq] at hrest
    cases hencode : f.encode with
    | error e =>
      have hpush : enc.outbox.push f = .error e := by simp only [Outbox.push, hencode]
      rw [hencode] at hrest
      simp only [encodeAll, encode_eq, hencode, Outbox.pushAll, hpush, ← hrest]
      rfl
    | ok bytes =>
      have hpush : enc.outbox.push f = .ok (bytes, (enc.write bytes).outbox) := by
        simp only [Outbox.push, hencode, outbox, bytes_write]
      rw [hencode] at hrest
      simp only [encodeAll, encode_eq, hencode, Outbox.pushAll, hpush, ← hrest]
      rfl

/-- A tape of its own holds the encoding of a frame. -/
theorem encodeFrame_eq (f : Frame) : encodeFrame f = f.encode := by
  rw [encodeFrame, encode_eq]
  cases f.encode with
  | error e => rfl
  | ok bytes => exact congrArg Except.ok (bytes_write empty bytes)

end Encoder

/-! ## Reading -/

theorem Frame.Kind.eq_byte_of_ofByte? {b : UInt8} {k : Kind} (h : Kind.ofByte? b = some k) :
    b = k.byte := by
  unfold Kind.ofByte? at h
  split at h
  · cases h
    assumption
  · split at h
    · cases h
      assumption
    · split at h
      · cases h
        assumption
      · cases h

/-- A byte that starts a frame decides how reading goes on. -/
theorem Reader.next_of_ofByte? {b : UInt8} {k : Kind} (h : Kind.ofByte? b = some k)
    (rest : List UInt8) :
    (⟨b :: rest⟩ : Reader).next =
      match k with
      | .events => nextBody (b :: rest) rest
      | .swapRequest => (some (.ok .swapRequest), ⟨rest⟩)
      | .swapNow => (some (.ok .swapNow), ⟨rest⟩) := by
  obtain rfl := Kind.eq_byte_of_ofByte? h
  cases k <;>
  · rw [next, List.dropWhile_cons_of_neg (by decide)]
    rfl

namespace Decoder

theorem length_reader (d : Decoder) : d.reader.remaining = d.remaining := by
  show (d.buffer.toList.drop d.readPos).length = d.buffer.size - d.readPos
  rw [List.length_drop, Array.length_toList]

/-- Taking out what was read leaves what was not. -/
theorem reader_compact (d : Decoder) : d.compact.reader = d.reader := by
  unfold compact
  split
  · have hall : (d.buffer.extract d.readPos).toList = d.buffer.toList.drop d.readPos := by
      rw [Array.toList_extract, List.extract_eq_take_drop, ← Array.length_toList, ← List.length_drop,
        List.take_length]
    rw [reader, hall]
    rfl
  · rfl

/-- Bytes that are fed go behind those that were not read. -/
theorem reader_feed (d : Decoder) (bytes : List UInt8) : (d.feed bytes).reader = d.reader.feed bytes := by
  have hwithin : d.compact.readPos ≤ d.compact.buffer.toList.length := d.compact.within
  rw [← reader_compact d]
  show (⟨(d.compact.buffer ++ bytes).toList.drop d.compact.readPos⟩ : Reader) = _
  rw [Array.toList_appendList, List.drop_append_of_le_length hwithin]
  rfl

/-- The bytes not read begin with the byte at the position. -/
theorem reader_eq_cons {d : Decoder} (h : d.readPos < d.buffer.size) :
    d.reader = ⟨d.buffer[d.readPos] :: (d.readTo (d.readPos + 1) h).reader.held⟩ := by
  rw [reader, List.drop_eq_getElem_cons (by rwa [Array.length_toList]), Array.getElem_toList]
  rfl

/-- A slice is what comes first behind its start. -/
theorem slice_add (d : Decoder) (start size : Nat) :
    d.slice start (start + size) = (d.buffer.toList.drop start).take size := by
  rw [slice, Array.toList_extract, List.extract_eq_take_drop, Nat.add_sub_cancel_left]

/-- The length and the body stand where the reader finds them, and as much of them is missing. -/
theorem map_nextEvents {d : Decoder} (h : d.readPos < d.buffer.size) :
    d.nextEvents.map id reader =
      Reader.nextBody d.reader.held (d.readTo (d.readPos + 1) h).reader.held := by
  have hlength : (d.buffer.toList.drop (d.readPos + 1)).length < 4 ↔
      d.buffer.size < d.readPos + 1 + 4 := by
    rw [List.length_drop, Array.length_toList]
    omega
  obtain ⟨size, hsize⟩ :
      ∃ size, (Word.uint32.decode ((d.buffer.toList.drop (d.readPos + 1)).take 4)).toNat = size :=
    ⟨_, rfl⟩
  show _ = Reader.nextBody d.reader.held (d.buffer.toList.drop (d.readPos + 1))
  unfold nextEvents Reader.nextBody
  simp only [slice_add, hlength, hsize, List.drop_drop]
  by_cases hshort : d.buffer.size < d.readPos + 1 + 4
  · rw [if_pos hshort, if_pos hshort]
    rfl
  · rw [if_neg hshort, if_neg hshort]
    by_cases hover : maxPayload < size
    · rw [if_pos hover, if_pos hover]
      show (_, (⟨d.buffer.toList.drop d.buffer.size⟩ : Reader)) = _
      rw [← Array.length_toList, List.drop_length]
      rfl
    · have hbody : (d.buffer.toList.drop (d.readPos + 1 + 4)).length < size ↔
          d.buffer.size < d.readPos + 1 + 4 + size := by
        rw [List.length_drop, Array.length_toList]
        omega
      rw [if_neg hover, if_neg hover]
      simp only [hbody]
      split
      · rfl
      · cases ofUtf8? ((d.buffer.toList.drop (d.readPos + 1 + 4)).take size) with
        | some text => rfl
        | none => rfl

/-- A decoder gives what its reader gives, and its position moves over the bytes that the reader takes. -/
theorem map_next (d : Decoder) : d.next.map id reader = d.reader.next := by
  fun_induction next d with
  | case1 d hbyte hkind ih =>
    have hnoise : Reader.isNoise d.buffer[d.readPos] = true := by
      rw [Reader.isNoise, hkind]
      rfl
    rw [ih, reader_eq_cons hbyte, Reader.next_noise hnoise]
  | case2 d hbyte hkind | case3 d hbyte hkind =>
    rw [reader_eq_cons hbyte, Reader.next_of_ofByte? hkind]
    rfl
  | case4 d hbyte hkind =>
    rw [map_nextEvents hbyte, reader_eq_cons hbyte, Reader.next_of_ofByte? hkind]
  | case5 d hend =>
    have hall : d.buffer.toList.drop d.readPos = [] := List.drop_eq_nil_of_le (Nat.le_of_not_lt hend)
    show (none, d.reader) = d.reader.next
    rw [reader, hall]
    rfl

theorem map_drain (d : Decoder) : d.drain.map id reader = d.reader.drain := by
  fun_induction drain d with
  | case1 d d' hnext =>
    have hreader := map_next d
    rw [hnext] at hreader
    exact (Reader.drain_of_next_none hreader.symm).symm
  | case2 d result d' hnext results d'' hdrain ih =>
    have hreader := map_next d
    rw [hnext] at hreader
    rw [Reader.drain_of_next_some hreader.symm, ← ih, hdrain]
    rfl

theorem map_use (d : Decoder) (u : Reader.Use) : (d.use u).map id reader = d.reader.use u := by
  cases u with
  | feed bytes => exact congrArg (Prod.mk none) (d.reader_feed bytes)
  | next => exact map_next d

theorem map_useAll (d : Decoder) (uses : List Reader.Use) :
    (d.useAll uses).map id reader = d.reader.useAll uses := by
  induction uses generalizing d with
  | nil => rfl
  | cons u uses ih =>
    rw [Reader.useAll, ← map_use]
    show _ = (_ ++ ((d.use u).2.reader.useAll uses).1, ((d.use u).2.reader.useAll uses).2)
    rw [← ih]
    rfl

/-- However bytes are fed and whenever a decoder is asked, it gives what a reader gives, and leaves the
    same bytes. -/
theorem map_decode (uses : List Reader.Use) : (decode uses).map id reader = Reader.decode uses := by
  rw [Reader.decode, show Reader.empty = empty.reader from rfl, ← map_useAll]
  show _ = (_ ++ ((empty.useAll uses).2.reader.drain).1, ((empty.useAll uses).2.reader.drain).2)
  rw [← map_drain]
  rfl

/-- What a reader gives and how many bytes it leaves, a decoder does. -/
theorem decode_of_reader {uses : List Reader.Use} {results : List (Except Error Frame)} {r : Reader}
    (h : Reader.decode uses = (results, r)) :
    (decode uses).1 = results ∧ (decode uses).2.remaining = r.remaining := by
  have hdecode := (map_decode uses).trans h
  have hresults : (decode uses).1 = results := congrArg Prod.fst hdecode
  have hleft : (decode uses).2.reader = r := congrArg Prod.snd hdecode
  refine ⟨hresults, ?_⟩
  rw [← length_reader, hleft]

end Decoder
end Lockstep
