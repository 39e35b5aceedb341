import Lockstep.Proofs.Frame.Buffered

/- Streams cut anywhere.

   1. `decode_pushAll`: frames that one outbox took come out of a reader as they went in, with noise
      anywhere between their bytes, however the bytes are cut and whenever the reader is asked.
   2. `decode_chunks`: two ways to feed the same bytes, whatever they are, give the same results up to
      the first length over the limit. Without one, the bytes are noise, frames and bodies that are no
      text, in the order of the results, and the rest is less than a frame.
   3. Both hold of the buffers with cursors that stand for the outbox and the reader, and are said of
      them too. -/
namespace Lockstep
open Lockstep.Frame

/-! ## Writing -/

namespace Frame

theorem encode_of_fits {f : Frame} (h : f.fits = true) :
    ∃ bytes, f.encode = .ok bytes ∧ bytes.length = f.wireSize := by
  have hencode : ∃ bytes, f.encode = .ok bytes := by
    cases f with
    | events text => exact ⟨_, if_neg (Nat.not_lt.2 (of_decide_eq_true h))⟩
    | swapRequest | swapNow => exact ⟨_, rfl⟩
  obtain ⟨bytes, hbytes⟩ := hencode
  exact ⟨bytes, hbytes, length_encode hbytes⟩

theorem encode_of_not_fits {f : Frame} (h : f.fits = false) :
    ∃ text, f = .events text ∧ maxPayload < text.utf8ByteSize ∧
      f.encode = .error (.payloadTooLarge text.utf8ByteSize) := by
  cases f with
  | swapRequest | swapNow => cases h
  | events text =>
    have hsize : maxPayload < text.utf8ByteSize := Nat.lt_of_not_le (of_decide_eq_false h)
    exact ⟨text, rfl, hsize, if_pos hsize⟩

end Frame

namespace Outbox

/-- A push gives what the frame's own encoding gives, and only what it gives is added. -/
theorem pushAll_eq (o : Outbox) (frames : List Frame) :
    o.pushAll frames = (frames.map Frame.encode,
      ⟨o.bytes ++ ((frames.map Frame.encode).filterMap Except.toOption).flatten⟩) := by
  induction frames generalizing o with
  | nil =>
    rw [pushAll, List.map_nil, List.filterMap_nil, List.flatten_nil, List.append_nil]
  | cons f frames ih =>
    cases hencode : f.encode with
    | error e =>
      have hpush : o.push f = .error e := by simp only [push, hencode]
      simp only [pushAll, hpush, ih, List.map_cons, hencode]
      rw [List.filterMap_cons_none rfl]
    | ok bytes =>
      have hpush : o.push f = .ok (bytes, ⟨o.bytes ++ bytes⟩) := by simp only [push, hencode]
      have hgiven : (Except.ok bytes : Except Frame.Error (List UInt8)).toOption = some bytes := rfl
      simp only [pushAll, hpush, ih, List.map_cons, hencode]
      rw [List.filterMap_cons_some hgiven, List.flatten_cons, List.append_assoc]

end Outbox

namespace Reader

/-- What pushes gave, with noise in between, is made of pieces that give the frames back. -/
theorem exists_pieces_of_interleave {noise : List (List UInt8)} {frames : List Frame}
    (hlength : noise.length = frames.length)
    (hnoise : ∀ bytes ∈ noise, ∀ b ∈ bytes, b ≠ 1 ∧ b ≠ 2 ∧ b ≠ 3) :
    ∃ pieces : List Piece, (∀ p ∈ pieces, p.Framed) ∧
      Outbox.interleave noise (frames.map Frame.encode) = pieces.flatMap Piece.bytes ∧
      pieces.filterMap Piece.gives = (frames.filter Frame.fits).map .ok := by
  induction frames generalizing noise with
  | nil =>
    rw [List.length_eq_zero_iff.1 hlength]
    exact ⟨[], nofun, rfl, rfl⟩
  | cons f frames ih =>
    cases noise with
    | nil => cases hlength
    | cons before noise =>
      obtain ⟨pieces, hframed, hbytes, hgives⟩ := ih (Nat.succ.inj hlength)
        fun bytes hmem => hnoise bytes (List.mem_cons_of_mem before hmem)
      obtain ⟨front, hfront, hbefore, hquiet⟩ :=
        exists_pieces_of_noise (hnoise before List.mem_cons_self)
      have hcons : Outbox.interleave (before :: noise) ((f :: frames).map Frame.encode) =
          before ++ (f.encode.toOption.getD [] ++ pieces.flatMap Piece.bytes) := by
        rw [← hbytes, ← List.append_assoc]
        rfl
      cases hfits : f.fits with
      | false =>
        obtain ⟨text, -, -, hencode⟩ := encode_of_not_fits hfits
        refine ⟨front ++ pieces, fun p hp => ?_, ?_, ?_⟩
        · exact (List.mem_append.1 hp).elim (hfront p) (hframed p)
        · rw [hcons, hencode, hbefore, List.flatMap_append]
          rfl
        · rw [List.filterMap_append, hquiet, hgives, List.filter_cons_of_neg (by rw [hfits]; nofun)]
          rfl
      | true =>
        obtain ⟨bytes, hencode, -⟩ := encode_of_fits hfits
        obtain ⟨p, hp, rfl, hg⟩ := exists_piece_of_encode hencode
        refine ⟨front ++ p :: pieces, fun q hq => ?_, ?_, ?_⟩
        · rcases List.mem_append.1 hq with hq | hq
          · exact hfront q hq
          · rcases List.mem_cons.1 hq with rfl | hq
            · exact hp
            · exact hframed q hq
        · rw [hcons, hencode, hbefore, List.flatMap_append, List.flatMap_cons]
          rfl
        · rw [List.filterMap_append, hquiet, List.filterMap_cons_some hg, hgives,
            List.filter_cons_of_pos hfits]
          rfl

/-- Frames pushed into one outbox, one after the other, come out of a reader. Each push gives the frame's
    own encoding, which adds as many bytes as the frame's size says; a text over the limit is refused
    and adds nothing. An encoder gives and holds what the outbox does, and a refusal leaves it as it was.
    A reader that is fed the bytes, with noise before, between and behind them, however they are cut and
    whenever it is asked in between, gives just the frames that were taken, in order, and nothing is left
    in it; so does a decoder. -/
theorem decode_pushAll (o : Outbox) (frames : List Frame) :
    (o.pushAll frames).1 = frames.map Frame.encode ∧
      (o.pushAll frames).2.bytes =
        o.bytes ++ ((o.pushAll frames).1.filterMap Except.toOption).flatten ∧
      (∀ f : Frame, (f.fits = true → ∃ bytes, f.encode = .ok bytes ∧ bytes.length = f.wireSize) ∧
        (f.fits = false → ∃ text, f = .events text ∧ maxPayload < text.utf8ByteSize ∧
          f.encode = .error (.payloadTooLarge text.utf8ByteSize))) ∧
      (∀ enc : Encoder, enc.outbox = o →
        (enc.encodeAll frames).1 = (o.pushAll frames).1 ∧
        (enc.encodeAll frames).2.outbox = (o.pushAll frames).2) ∧
      (∀ f : Frame, Encoder.encodeFrame f = f.encode ∧
        (f.fits = false → ∀ enc : Encoder, (enc.encode f).2 = enc)) ∧
      ∀ (noise : List (List UInt8)) (last : List UInt8) (uses : List Use),
        noise.length = frames.length →
        (∀ bytes ∈ last :: noise, ∀ b ∈ bytes, b ≠ 1 ∧ b ≠ 2 ∧ b ≠ 3) →
        fed uses = Outbox.interleave noise (o.pushAll frames).1 ++ last →
        (decode uses).1 = (frames.filter Frame.fits).map .ok ∧ (decode uses).2.remaining = 0 ∧
        (Decoder.decode uses).1 = (frames.filter Frame.fits).map .ok ∧
        (Decoder.decode uses).2.remaining = 0 := by
  have hencoder : ∀ enc : Encoder, enc.outbox = o →
      (enc.encodeAll frames).1 = (o.pushAll frames).1 ∧
      (enc.encodeAll frames).2.outbox = (o.pushAll frames).2 := by
    intro enc henc
    rw [← henc, ← enc.encodeAll_eq]
    exact ⟨rfl, rfl⟩
  have hrefused : ∀ f : Frame, f.fits = false → ∀ enc : Encoder, (enc.encode f).2 = enc := by
    intro f hfits enc
    obtain ⟨text, -, -, hencode⟩ := encode_of_not_fits hfits
    rw [enc.encode_eq, hencode]
  rw [Outbox.pushAll_eq] at hencoder ⊢
  refine ⟨rfl, rfl, fun f => ⟨encode_of_fits, encode_of_not_fits⟩, hencoder,
    fun f => ⟨Encoder.encodeFrame_eq f, hrefused f⟩, ?_⟩
  intro noise last uses hlength hnoise hfed
  obtain ⟨pieces, hframed, hbytes, hgives⟩ := exists_pieces_of_interleave hlength
    fun bytes hmem => hnoise bytes (List.mem_cons_of_mem last hmem)
  obtain ⟨back, hback, hlast, hquiet⟩ := exists_pieces_of_noise (hnoise last List.mem_cons_self)
  have hdecode : decode uses = ((pieces ++ back).filterMap Piece.gives, ⟨[]⟩) := by
    have hnone : Incomplete [] := .inl rfl
    apply decode_of_pieces (fun p hp => ?_) hnone
    · rw [hfed, hbytes, hlast, List.flatMap_append, List.append_nil]
    · exact (List.mem_append.1 hp).elim (hframed p) (hback p)
  rw [List.filterMap_append, hquiet, List.append_nil, hgives] at hdecode
  obtain ⟨hresults, hremaining⟩ := Decoder.decode_of_reader hdecode
  rw [hdecode]
  exact ⟨rfl, rfl, hresults, hremaining⟩

/-- Three frames in one outbox, with noise around the second, cut within the length of the first and
    within the last letter of the third. -/
theorem decode_pushAll_three :
    fed [.next, .feed [9, 1, 0], .next, .feed [0, 0, 2, 104, 105, 0, 2, 7], .next,
        .feed [255, 1, 0, 0, 0, 2, 195], .next, .next, .feed [169, 4]] =
      Outbox.interleave [[9], [0], [7, 255]]
        (Outbox.pushAll ⟨[3]⟩ [.events "hi", .swapRequest, .events "é"]).1 ++ [4] ∧
      (decode [.next, .feed [9, 1, 0], .next, .feed [0, 0, 2, 104, 105, 0, 2, 7], .next,
        .feed [255, 1, 0, 0, 0, 2, 195], .next, .next, .feed [169, 4]]).1 =
          [.ok (.events "hi"), .ok .swapRequest, .ok (.events "é")] ∧
      (decode [.next, .feed [9, 1, 0], .next, .feed [0, 0, 2, 104, 105, 0, 2, 7], .next,
        .feed [255, 1, 0, 0, 0, 2, 195], .next, .next, .feed [169, 4]]).2.remaining = 0 ∧
      ((Encoder.empty.encode .swapNow).2.encodeAll [.events "hi", .swapRequest, .events "é"]).2.outbox =
        (Outbox.pushAll ⟨[3]⟩ [.events "hi", .swapRequest, .events "é"]).2 ∧
      (Decoder.decode [.next, .feed [9, 1, 0], .next, .feed [0, 0, 2, 104, 105, 0, 2, 7], .next,
        .feed [255, 1, 0, 0, 0, 2, 195], .next, .next, .feed [169, 4]]).1 =
          [.ok (.events "hi"), .ok .swapRequest, .ok (.events "é")] := by
  have hfed : fed [.next, .feed [9, 1, 0], .next, .feed [0, 0, 2, 104, 105, 0, 2, 7], .next,
      .feed [255, 1, 0, 0, 0, 2, 195], .next, .next, .feed [169, 4]] =
        Outbox.interleave [[9], [0], [7, 255]]
          (Outbox.pushAll ⟨[3]⟩ [.events "hi", .swapRequest, .events "é"]).1 ++ [4] := by
    decide +kernel
  have hnoise : ∀ bytes ∈ ([[4], [9], [0], [7, 255]] : List (List UInt8)), ∀ b ∈ bytes,
      b ≠ 1 ∧ b ≠ 2 ∧ b ≠ 3 := by
    decide +kernel
  have hencoder : (Encoder.empty.encode .swapNow).2.outbox = ⟨[3]⟩ := by decide +kernel
  obtain ⟨-, -, -, hencodeAll, -, hdecode⟩ :=
    decode_pushAll ⟨[3]⟩ [.events "hi", .swapRequest, .events "é"]
  obtain ⟨hresults, hremaining, hdecoder, -⟩ := hdecode [[9], [0], [7, 255]] [4] _ rfl hnoise hfed
  exact ⟨hfed, hresults, hremaining, (hencodeAll _ hencoder).2, hdecoder⟩

/-! ## Reading -/

/-- However some bytes are cut and whenever the reader is asked in between, it gives the same results up
    to the first length over the limit. Without such a length, the bytes are noise, frames of one byte
    and frames of events that give the results in order, an error just for a body that is the encoding
    of no text; and nothing is left, or the beginning of one frame of events with a length within the
    limit. A decoder gives and keeps what the reader does. -/
theorem decode_chunks {uses uses' : List Use} (h : fed uses = fed uses') :
    upToLoss (decode uses).1 = upToLoss (decode uses').1 ∧
      (Decoder.decode uses).map id Decoder.reader = decode uses ∧
      ((∀ size, .error (.payloadTooLarge size) ∉ (decode uses).1) →
        decode uses' = decode uses ∧
        (∃ pieces : List Piece, (∀ p ∈ pieces, p.Framed) ∧
          fed uses = pieces.flatMap Piece.bytes ++ (decode uses).2.held ∧
          (decode uses).1 = pieces.filterMap Piece.gives ∧
          ∀ p ∈ pieces, p.gives = some (.error .invalidUtf8) ↔
            ∃ body, p = .events body ∧ ∀ text, utf8 text ≠ body) ∧
        Incomplete (decode uses).2.held ∧ (decode uses).2.remaining < maxPayload + 5) := by
  refine ⟨by rw [upToLoss_decode, upToLoss_decode, h], Decoder.map_decode uses, fun hloss => ?_⟩
  obtain ⟨hreads, hleft⟩ := reads_decode uses
  obtain ⟨pieces, hframed, hfed, hresults⟩ := hreads.framed hloss
  have hsame : decode uses' = decode uses := by
    have hfirst := decode_of_pieces hframed hleft hfed
    exact (decode_of_pieces hframed hleft (h ▸ hfed)).trans hfirst.symm
  refine ⟨hsame, ⟨pieces, hframed, hfed, hresults, fun p hp => ⟨fun hg => ?_, ?_⟩⟩, hleft,
    hleft.length_lt⟩
  · cases p with
    | noise | swapRequest | swapNow => cases hg
    | overlong => exact absurd (hframed _ hp) id
    | events body =>
      rcases Piece.gives_events_cases body with ⟨text, -, hg'⟩ | ⟨hbody, -⟩
      · rw [hg'] at hg
        cases hg
      · exact ⟨body, rfl, hbody⟩
  · rintro ⟨body, rfl, hbody⟩
    rcases Piece.gives_events_cases body with ⟨text, htext, -⟩ | ⟨-, hg⟩
    · exact absurd htext (hbody text)
    · exact hg

/-- Noise, a body that is no text, a request, and the beginning of a frame, in one cut and in three. -/
theorem decode_chunks_hostile :
    upToLoss (decode [.feed [0, 1, 0, 0, 0, 1, 255, 2, 1, 0]]).1 =
        upToLoss (decode [.next, .feed [0, 1, 0], .next, .feed [0, 0, 1, 255, 2, 1], .next, .next,
          .feed [0]]).1 ∧
      decode [.feed [0, 1, 0, 0, 0, 1, 255, 2, 1, 0]] =
        ([.error .invalidUtf8, .ok .swapRequest], ⟨[1, 0]⟩) ∧
      decode [.next, .feed [0, 1, 0], .next, .feed [0, 0, 1, 255, 2, 1], .next, .next, .feed [0]] =
        ([.error .invalidUtf8, .ok .swapRequest], ⟨[1, 0]⟩) ∧ Incomplete [1, 0] := by
  have hpieces : ∀ p ∈ [Piece.noise 0, .events [255], .swapRequest], p.Framed := by
    simp [Piece.Framed, maxPayload]
  have hwhole : decode [.feed [0, 1, 0, 0, 0, 1, 255, 2, 1, 0]] =
      ([.error .invalidUtf8, .ok .swapRequest], ⟨[1, 0]⟩) :=
    decode_of_pieces hpieces (incomplete_of_length_lt (by decide)) (by decide)
  have hfed : fed [.feed [0, 1, 0, 0, 0, 1, 255, 2, 1, 0]] =
      fed [.next, .feed [0, 1, 0], .next, .feed [0, 0, 1, 255, 2, 1], .next, .next, .feed [0]] := by
    decide
  obtain ⟨hsame, -, hrest⟩ := decode_chunks hfed
  obtain ⟨hcut, -, hleft, -⟩ := hrest fun size => by
    rw [hwhole]
    simp
  rw [hwhole] at hcut hleft
  exact ⟨hsame, hwhole, hcut, hleft⟩

end Reader
end Lockstep
