import Lockstep.Frame.Stream

/- What a reader makes of any bytes.

   1. A reader that holds the bytes of a piece takes that piece and no more (`next_append`,
      `drain_append`), and one that holds the beginning of a frame keeps it (`Incomplete.next`).
   2. Whatever a reader holds, `next` takes sound pieces from it, and what it leaves when it gives
      nothing is incomplete (`reads_next`). So does any number of uses of it, with a drain at the end
      (`reads_decode`).
   3. Hence the bytes alone decide what comes out, up to the first length over the limit
      (`upToLoss_decode`). Without such a length they are pieces in one way only (`decode_of_pieces`). -/
namespace Lockstep
open Lockstep.Frame

theorem ofUtf8?_eq_some_iff {bytes : List UInt8} {text : String} :
    ofUtf8? bytes = some text ↔ utf8 text = bytes := by
  refine ⟨fun h => ?_, fun h => h ▸ ofUtf8?_utf8 text⟩
  rw [ofUtf8?, String.fromUTF8?] at h
  split at h
  · cases h
    rfl
  · cases h

namespace Piece

/-- The body of a frame of events gives a frame, or an error when it is the encoding of no text. -/
theorem gives_events_cases (body : List UInt8) :
    (∃ text, utf8 text = body ∧ (events body).gives = some (.ok (.events text))) ∨
      (∀ text, utf8 text ≠ body) ∧ (events body).gives = some (.error .invalidUtf8) := by
  rw [gives]
  cases htext : ofUtf8? body with
  | some text => exact .inl ⟨text, ofUtf8?_eq_some_iff.1 htext, rfl⟩
  | none =>
    refine .inr ⟨fun text h => ?_, rfl⟩
    rw [ofUtf8?_eq_some_iff.2 h] at htext
    cases htext

theorem gives_events_ne_none (body : List UInt8) : (events body).gives ≠ none := by
  rcases gives_events_cases body with ⟨text, -, hg⟩ | ⟨-, hg⟩ <;>
  · rw [hg]
    exact nofun

theorem Framed.sound {p : Piece} (h : p.Framed) : p.Sound := by
  cases p with
  | overlong size lost => cases h
  | noise | swapRequest | swapNow | events => exact h

/-- Among sound pieces, those that are not framed are the ones that give an oversize. -/
theorem Sound.framed {p : Piece} (h : p.Sound)
    (hg : ∀ size, p.gives ≠ some (.error (.payloadTooLarge size))) : p.Framed := by
  cases p with
  | overlong size lost => exact absurd rfl (hg size.toNat)
  | noise | swapRequest | swapNow | events => exact h

end Piece

namespace Reader

theorem isNoise_iff {b : UInt8} : isNoise b = true ↔ b ≠ 1 ∧ b ≠ 2 ∧ b ≠ 3 := by
  rw [isNoise, Kind.ofByte?]
  split
  · simp_all
  · split
    · simp_all
    · split <;> simp_all

/-! ## One piece -/

theorem next_noise {b : UInt8} (h : isNoise b = true) (rest : List UInt8) :
    (⟨b :: rest⟩ : Reader).next = (⟨rest⟩ : Reader).next := by
  rw [next, next, List.dropWhile_cons_of_pos h]

/-- The reader behind a first byte of 1 and the length after it. -/
theorem next_of_length {word : List UInt8} (hword : word.length = 4) (rest : List UInt8) :
    (⟨1 :: (word ++ rest)⟩ : Reader).next =
      if maxPayload < (Word.uint32.decode word).toNat then
        (some (.error (.payloadTooLarge (Word.uint32.decode word).toNat)), ⟨[]⟩)
      else if rest.length < (Word.uint32.decode word).toNat then (none, ⟨1 :: (word ++ rest)⟩)
      else ((Piece.events (rest.take (Word.uint32.decode word).toNat)).gives,
        ⟨rest.drop (Word.uint32.decode word).toNat⟩) := by
  have hhead : ¬ (word ++ rest).length < 4 := by
    rw [List.length_append]
    omega
  have htake : (word ++ rest).take 4 = word := by rw [← hword, List.take_left]
  have hdrop : (word ++ rest).drop 4 = rest := by rw [← hword, List.drop_left]
  rw [next, List.dropWhile_cons_of_neg (by decide)]
  show nextBody _ _ = _
  rw [nextBody, if_neg hhead, htake, hdrop]
  dsimp only
  by_cases hover : maxPayload < (Word.uint32.decode word).toNat
  · rw [if_pos hover, if_pos hover]
  · rw [if_neg hover, if_neg hover]
    by_cases hbody : rest.length < (Word.uint32.decode word).toNat
    · rw [if_pos hbody, if_pos hbody]
    · rw [if_neg hbody, if_neg hbody, Piece.gives]
      cases ofUtf8? (rest.take (Word.uint32.decode word).toNat) <;> rfl

theorem toNat_ofNat_of_le_maxPayload {n : Nat} (h : n ≤ maxPayload) : (UInt32.ofNat n).toNat = n := by
  rw [UInt32.toNat_ofNat']
  rw [maxPayload] at h
  omega

/-- A piece at the front is read, and reading goes on where it ends. -/
theorem next_append {p : Piece} (h : p.Framed) (rest : List UInt8) :
    (⟨p.bytes ++ rest⟩ : Reader).next =
      if p.gives = none then (⟨rest⟩ : Reader).next else (p.gives, ⟨rest⟩) := by
  cases p with
  | noise b => exact next_noise (isNoise_iff.2 h) rest
  | swapRequest => rfl
  | swapNow => rfl
  | overlong => cases h
  | events body =>
    have hsize : (Word.uint32.decode (Word.uint32.encode (UInt32.ofNat body.length))).toNat =
        body.length := by
      rw [Word.decode_encode, toNat_ofNat_of_le_maxPayload h]
    have hbytes : (Piece.events body).bytes ++ rest =
        1 :: (Word.uint32.encode (UInt32.ofNat body.length) ++ (body ++ rest)) := by
      rw [Piece.bytes, List.cons_append, List.append_assoc]
    rw [if_neg (Piece.gives_events_ne_none body), hbytes, next_of_length (Word.length_encode ..), hsize,
      if_neg (Nat.not_lt.2 h), if_neg, List.take_left, List.drop_left]
    rw [List.length_append]
    omega

/-- The bytes of a frame are a piece. -/
theorem exists_piece_of_encode {f : Frame} {bytes : List UInt8} (h : f.encode = .ok bytes) :
    ∃ p : Piece, p.Framed ∧ p.bytes = bytes ∧ p.gives = some (.ok f) := by
  cases f with
  | swapRequest =>
    cases h
    exact ⟨.swapRequest, trivial, rfl, rfl⟩
  | swapNow =>
    cases h
    exact ⟨.swapNow, trivial, rfl, rfl⟩
  | events text =>
    rw [encode] at h
    split at h
    · cases h
    · rename_i hsize
      cases h
      refine ⟨.events (utf8 text), Nat.le_of_not_lt hsize, rfl, ?_⟩
      rw [Piece.gives, ofUtf8?_utf8]

/-- Noise as pieces. -/
theorem exists_pieces_of_noise {noise : List UInt8} (h : ∀ b ∈ noise, b ≠ 1 ∧ b ≠ 2 ∧ b ≠ 3) :
    ∃ pieces : List Piece, (∀ p ∈ pieces, p.Framed) ∧ noise = pieces.flatMap Piece.bytes ∧
      pieces.filterMap Piece.gives = [] := by
  refine ⟨noise.map .noise, fun p hp => ?_, ?_, ?_⟩
  · obtain ⟨b, hb, rfl⟩ := List.mem_map.1 hp
    exact h b hb
  · rw [List.flatMap_map]
    exact (List.flatMap_singleton' noise).symm
  · rw [List.filterMap_map]
    exact List.filterMap_eq_nil_iff.2 fun b _ => rfl

/-- A length over the limit is read, and nothing is left. -/
theorem next_overlong {size : UInt32} {lost : List UInt8} (h : maxPayload < size.toNat)
    (rest : List UInt8) : (⟨(Piece.overlong size lost).bytes ++ rest⟩ : Reader).next =
      (some (.error (.payloadTooLarge size.toNat)), ⟨[]⟩) := by
  have hbytes : (Piece.overlong size lost).bytes ++ rest =
      1 :: (Word.uint32.encode size ++ (lost ++ rest)) := by
    rw [Piece.bytes, List.cons_append, List.append_assoc]
  rw [hbytes, next_of_length (Word.length_encode ..), Word.decode_encode, if_pos h]

/-! ## A drain -/

theorem drain_of_next_none {r r' : Reader} (h : r.next = (none, r')) : r.drain = ([], r') := by
  rw [drain]
  split <;> simp_all

theorem drain_of_next_some {r r' : Reader} {result : Except Error Frame}
    (h : r.next = (some result, r')) : r.drain = (result :: r'.drain.1, r'.drain.2) := by
  rw [drain]
  split <;> simp_all

theorem drain_of_next_eq {r r' : Reader} (h : r.next = r'.next) : r.drain = r'.drain := by
  cases hn : r'.next with
  | mk o after =>
    rw [hn] at h
    cases o with
    | none => rw [drain_of_next_none h, drain_of_next_none hn]
    | some result => rw [drain_of_next_some h, drain_of_next_some hn]

theorem drain_append {p : Piece} (h : p.Framed) (rest : List UInt8) :
    (⟨p.bytes ++ rest⟩ : Reader).drain =
      (p.gives.toList ++ (⟨rest⟩ : Reader).drain.1, (⟨rest⟩ : Reader).drain.2) := by
  have hnext := next_append h rest
  cases hg : p.gives with
  | none =>
    rw [if_pos hg] at hnext
    exact drain_of_next_eq hnext
  | some result =>
    rw [hg, if_neg nofun] at hnext
    exact drain_of_next_some hnext

theorem drain_overlong {size : UInt32} {lost : List UInt8} (h : maxPayload < size.toNat)
    (rest : List UInt8) : (⟨(Piece.overlong size lost).bytes ++ rest⟩ : Reader).drain =
      ([.error (.payloadTooLarge size.toNat)], ⟨[]⟩) := by
  have hempty : (⟨[]⟩ : Reader).drain = ([], ⟨[]⟩) := drain_of_next_none rfl
  rw [drain_of_next_some (next_overlong h rest), hempty]

/-- Pieces are read one by one. -/
theorem drain_flatMap_append {pieces : List Piece} (h : ∀ p ∈ pieces, p.Framed)
    (rest : List UInt8) : (⟨pieces.flatMap Piece.bytes ++ rest⟩ : Reader).drain =
      (pieces.filterMap Piece.gives ++ (⟨rest⟩ : Reader).drain.1, (⟨rest⟩ : Reader).drain.2) := by
  induction pieces with
  | nil => rfl
  | cons p pieces ih =>
    rw [List.flatMap_cons, List.append_assoc, drain_append (h p List.mem_cons_self),
      ih fun q hq => h q (List.mem_cons_of_mem p hq)]
    cases hg : p.gives with
    | none => rw [List.filterMap_cons_none hg]; rfl
    | some result => rw [List.filterMap_cons_some hg]; rfl

end Reader

/-! ## Any bytes -/

namespace Reads
variable {held left : List UInt8} {results : List (Except Error Frame)}

theorem refl (held : List UInt8) : Reads held [] held := ⟨[], nofun, rfl, rfl⟩

theorem trans {rest : List UInt8} {more : List (Except Error Frame)} (h : Reads held results rest)
    (h' : Reads rest more left) : Reads held (results ++ more) left := by
  obtain ⟨pieces, hsound, hheld, hresults⟩ := h
  obtain ⟨pieces', hsound', hrest, hmore⟩ := h'
  refine ⟨pieces ++ pieces', fun p hp => ?_, ?_, ?_⟩
  · exact (List.mem_append.1 hp).elim (hsound p) (hsound' p)
  · rw [hheld, hrest, List.flatMap_append, List.append_assoc]
  · rw [hresults, hmore, List.filterMap_append]

/-- What arrives behind the bytes changes nothing about what was read. -/
theorem append (h : Reads held results left) (more : List UInt8) :
    Reads (held ++ more) results (left ++ more) := by
  obtain ⟨pieces, hsound, hheld, hresults⟩ := h
  exact ⟨pieces, hsound, by rw [hheld, List.append_assoc], hresults⟩

theorem of_piece {p : Piece} (h : p.Sound) (left : List UInt8) :
    Reads (p.bytes ++ left) p.gives.toList left := by
  refine ⟨[p], fun q hq => List.mem_singleton.1 hq ▸ h, ?_, ?_⟩
  · rw [List.flatMap_singleton]
  · cases hg : p.gives with
    | none => rw [List.filterMap_cons_none hg]; rfl
    | some result => rw [List.filterMap_cons_some hg]; rfl

/-- Noise gives nothing. -/
theorem of_noise {noise : List UInt8} (h : ∀ b ∈ noise, Reader.isNoise b = true)
    (left : List UInt8) : Reads (noise ++ left) [] left := by
  obtain ⟨pieces, hframed, hbytes, hgives⟩ :=
    Reader.exists_pieces_of_noise fun b hb => Reader.isNoise_iff.1 (h b hb)
  exact ⟨pieces, fun p hp => (hframed p hp).sound, by rw [hbytes], hgives.symm⟩

/-- Where no length was over the limit, all pieces are framed. -/
theorem framed (h : Reads held results left)
    (hr : ∀ size, .error (.payloadTooLarge size) ∉ results) :
    ∃ pieces : List Piece, (∀ p ∈ pieces, p.Framed) ∧
      held = pieces.flatMap Piece.bytes ++ left ∧ results = pieces.filterMap Piece.gives := by
  obtain ⟨pieces, hsound, hheld, hresults⟩ := h
  refine ⟨pieces, fun p hp => (hsound p hp).framed fun size hsize => hr size ?_, hheld, hresults⟩
  rw [hresults]
  exact List.mem_filterMap.2 ⟨p, hp, hsize⟩

end Reads

/-- A length of which something is missing can be filled up, and then a body can follow it. -/
theorem incomplete_of_length_lt {rest : List UInt8} (h : rest.length < 4) :
    Incomplete (1 :: rest) := by
  have hfill : ∃ fill : List UInt8, fill ≠ [] ∧ (rest ++ fill).length = 4 := by
    refine ⟨List.replicate (4 - rest.length) 0, fun hnil => ?_, ?_⟩
    · have := congrArg List.length hnil
      rw [List.length_replicate, List.length_nil] at this
      omega
    · rw [List.length_append, List.length_replicate]
      omega
  obtain ⟨fill, hne, hword⟩ := hfill
  refine .inr ⟨rest ++ fill, List.replicate (Word.uint32.decode (rest ++ fill)).toNat 0,
    fill ++ List.replicate (Word.uint32.decode (rest ++ fill)).toNat 0, ?_,
    List.append_ne_nil_of_left_ne_nil hne _, hword, List.length_replicate, fun hlong => ?_⟩
  · rw [List.cons_append, List.append_assoc]
  · rw [List.length_cons] at hlong
    omega

/-- A body of which something is missing can be filled up. -/
theorem incomplete_of_body {word body : List UInt8} (hword : word.length = 4)
    (hsize : (Word.uint32.decode word).toNat ≤ maxPayload)
    (hbody : body.length < (Word.uint32.decode word).toNat) : Incomplete (1 :: (word ++ body)) := by
  have hfill : ∃ fill : List UInt8, fill ≠ [] ∧
      (body ++ fill).length = (Word.uint32.decode word).toNat := by
    refine ⟨List.replicate ((Word.uint32.decode word).toNat - body.length) 0, fun hnil => ?_, ?_⟩
    · have := congrArg List.length hnil
      rw [List.length_replicate, List.length_nil] at this
      omega
    · rw [List.length_append, List.length_replicate]
      omega
  obtain ⟨fill, hne, hlength⟩ := hfill
  refine .inr ⟨word, body ++ fill, fill, ?_, hne, hword, hlength, fun _ => hlength ▸ hsize⟩
  rw [List.cons_append, List.append_assoc]

/-- A reader that holds the beginning of a frame gives nothing and keeps it. -/
theorem Incomplete.next {held : List UInt8} (h : Incomplete held) :
    (⟨held⟩ : Reader).next = (none, ⟨held⟩) := by
  rcases h with rfl | ⟨word, body, missing, hbytes, hne, hword, hsize, hlimit⟩
  · rfl
  cases held with
  | nil => rfl
  | cons b held =>
    obtain ⟨rfl, htail⟩ := List.cons.inj hbytes
    have htail : word ++ body = held ++ missing := htail
    have hmissing := List.length_pos_iff.2 hne
    have hlength := congrArg List.length htail
    rw [List.length_append, List.length_append] at hlength
    by_cases hhead : held.length < 4
    · rw [Reader.next, List.dropWhile_cons_of_neg (by decide)]
      show Reader.nextBody _ _ = _
      rw [Reader.nextBody, if_pos hhead]
    · -- What is missing belongs to the body.
      have hhead := Nat.le_of_not_lt hhead
      have htake : held.take 4 = word := by
        have := congrArg (List.take 4) htail
        rwa [List.take_append_of_le_length hhead, ← hword, List.take_left, hword, eq_comm] at this
      have hlimit := hlimit (Nat.succ_le_succ hhead)
      have hsplit : held = word ++ held.drop 4 := by rw [← htake, List.take_append_drop]
      have hshort : (held.drop 4).length < (Word.uint32.decode word).toNat := by
        rw [List.length_drop]
        omega
      rw [hsplit, Reader.next_of_length hword, if_neg (Nat.not_lt.2 (hsize ▸ hlimit)), if_pos hshort]

theorem Incomplete.drain {held : List UInt8} (h : Incomplete held) :
    (⟨held⟩ : Reader).drain = ([], ⟨held⟩) := Reader.drain_of_next_none h.next

/-- What is left of a stream is shorter than the longest frame. -/
theorem Incomplete.length_lt {held : List UInt8} (h : Incomplete held) :
    held.length < maxPayload + 5 := by
  rcases h with rfl | ⟨word, body, missing, hbytes, hne, hword, -, hlimit⟩
  · exact Nat.succ_pos _
  · have hmissing := List.length_pos_iff.2 hne
    have hlength := congrArg List.length hbytes
    rw [List.length_cons, List.length_append, List.length_append] at hlength
    by_cases hshort : held.length < 5
    · omega
    · have := hlimit (Nat.le_of_not_lt hshort)
      omega

namespace Reader

/-- What a reader takes when it starts at a byte that is no noise. -/
theorem reads_next_of_not_noise {b : UInt8} (hb : isNoise b = false) (rest : List UInt8) :
    Reads (b :: rest) (⟨b :: rest⟩ : Reader).next.1.toList (⟨b :: rest⟩ : Reader).next.2.held ∧
      ((⟨b :: rest⟩ : Reader).next.1 = none → Incomplete (⟨b :: rest⟩ : Reader).next.2.held) := by
  have hkind : b = 1 ∨ b = 2 ∨ b = 3 := by
    by_cases h1 : b = 1
    · exact .inl h1
    · by_cases h2 : b = 2
      · exact .inr (.inl h2)
      · refine .inr (.inr (Decidable.byContradiction fun h3 => ?_))
        rw [isNoise_iff.2 ⟨h1, h2, h3⟩] at hb
        cases hb
  rcases hkind with rfl | rfl | rfl
  · by_cases hhead : rest.length < 4
    · have hnext : (⟨1 :: rest⟩ : Reader).next = (none, ⟨1 :: rest⟩) := by
        rw [next, List.dropWhile_cons_of_neg (by decide)]
        show nextBody _ _ = _
        rw [nextBody, if_pos hhead]
      rw [hnext]
      exact ⟨.refl _, fun _ => incomplete_of_length_lt hhead⟩
    · -- The length is there: it is over the limit, or the body is short, or there is a whole frame.
      obtain ⟨word, tail, hword, rfl⟩ : ∃ word tail : List UInt8, word.length = 4 ∧
          rest = word ++ tail :=
        ⟨rest.take 4, rest.drop 4, List.length_take_of_le (Nat.le_of_not_lt hhead),
          (List.take_append_drop 4 rest).symm⟩
      have hencode := Word.encode_decode_uint32 hword
      rw [next_of_length hword]
      split
      · rename_i hover
        have := Reads.of_piece (p := .overlong (Word.uint32.decode word) tail) hover []
        rw [Piece.bytes, hencode, List.append_nil] at this
        exact ⟨this, nofun⟩
      · rename_i hsize
        have hsize := Nat.le_of_not_lt hsize
        split
        · rename_i hbody
          exact ⟨.refl _, fun _ => incomplete_of_body hword hsize hbody⟩
        · rename_i hbody
          have hlength : (tail.take (Word.uint32.decode word).toNat).length =
              (Word.uint32.decode word).toNat := List.length_take_of_le (Nat.le_of_not_lt hbody)
          have hframed : (Piece.events (tail.take (Word.uint32.decode word).toNat)).Framed := by
            rw [Piece.Framed, hlength]
            exact hsize
          have := Reads.of_piece hframed.sound (tail.drop (Word.uint32.decode word).toNat)
          rw [Piece.bytes, hlength, UInt32.ofNat_toNat, hencode, List.cons_append, List.append_assoc,
            List.take_append_drop] at this
          exact ⟨this, fun hnone => absurd hnone (Piece.gives_events_ne_none _)⟩
  · exact ⟨.of_piece (p := .swapRequest) trivial rest, nofun⟩
  · exact ⟨.of_piece (p := .swapNow) trivial rest, nofun⟩

/-- Whatever a reader holds, it takes sound pieces from it, and when it gives nothing, what is left is
    incomplete. -/
theorem reads_next (r : Reader) :
    Reads r.held r.next.1.toList r.next.2.held ∧ (r.next.1 = none → Incomplete r.next.2.held) := by
  have hsplit : r.held.takeWhile isNoise ++ r.held.dropWhile isNoise = r.held :=
    List.takeWhile_append_dropWhile
  have hnoise : ∀ b ∈ r.held.takeWhile isNoise, isNoise b = true := fun b hb =>
    List.all_eq_true.1 (List.all_takeWhile ..) b hb
  cases hrest : r.held.dropWhile isNoise with
  | nil =>
    have hnext : r.next = (none, ⟨[]⟩) := by rw [next, hrest]
    rw [hrest] at hsplit
    rw [hnext, ← hsplit]
    exact ⟨.of_noise hnoise [], fun _ => .inl rfl⟩
  | cons b rest =>
    have hb : isNoise b = false := by
      have := List.head?_dropWhile_not isNoise r.held
      rwa [hrest] at this
    have hnext : r.next = (⟨b :: rest⟩ : Reader).next := by
      rw [next, next, hrest, List.dropWhile_cons_of_neg (by rw [hb]; exact nofun)]
    obtain ⟨hreads, hleft⟩ := reads_next_of_not_noise hb rest
    rw [hrest] at hsplit
    rw [hnext, ← hsplit]
    exact ⟨(Reads.of_noise hnoise _).trans hreads, hleft⟩

/-! ## Any uses -/

/-- A drain takes sound pieces, and what it leaves is incomplete. -/
theorem reads_drain (r : Reader) :
    Reads r.held r.drain.1 r.drain.2.held ∧ Incomplete r.drain.2.held := by
  fun_induction drain r with
  | case1 r r' hnext =>
    obtain ⟨hreads, hleft⟩ := reads_next r
    rw [hnext] at hreads hleft
    exact ⟨hreads, hleft rfl⟩
  | case2 r result r' hnext results r'' hdrain ih =>
    have hreads := (reads_next r).1
    rw [hnext] at hreads
    rw [hdrain] at ih
    exact ⟨hreads.trans ih.1, ih.2⟩

theorem reads_useAll (r : Reader) (uses : List Use) :
    Reads (r.held ++ fed uses) (r.useAll uses).1 (r.useAll uses).2.held := by
  induction uses generalizing r with
  | nil =>
    rw [fed, List.flatMap_nil, List.append_nil]
    exact .refl _
  | cons u uses ih =>
    have hrest := ih (r.use u).2
    have hfirst : Reads (r.held ++ fed (u :: uses)) (r.use u).1.toList
        ((r.use u).2.held ++ fed uses) := by
      cases u with
      | feed bytes =>
        have hfed : r.held ++ fed (.feed bytes :: uses) = (r.held ++ bytes) ++ fed uses :=
          (List.append_assoc ..).symm
        rw [hfed]
        exact .refl _
      | next => exact (reads_next r).1.append (fed uses)
    exact hfirst.trans hrest

/-- All that is fed is read in pieces, and what is left at the end is incomplete. -/
theorem reads_decode (uses : List Use) :
    Reads (fed uses) (decode uses).1 (decode uses).2.held ∧ Incomplete (decode uses).2.held := by
  obtain ⟨hdrain, hleft⟩ := reads_drain (empty.useAll uses).2
  exact ⟨(reads_useAll empty uses).trans hdrain, hleft⟩

/-! ## The bytes alone decide -/

theorem upToLoss_cons_of_framed {p : Piece} (h : p.Framed) {result : Except Error Frame}
    (hg : p.gives = some result) (results : List (Except Error Frame)) :
    upToLoss (result :: results) = result :: upToLoss results := by
  cases p with
  | noise => cases hg
  | overlong => cases h
  | swapRequest | swapNow =>
    cases hg
    rfl
  | events body =>
    rcases Piece.gives_events_cases body with ⟨text, -, hg'⟩ | ⟨-, hg'⟩ <;>
    · rw [hg'] at hg
      cases hg
      rfl

/-- Reading some pieces first and draining the rest gives what a drain of all of them gives, up to the
    first length over the limit. -/
theorem upToLoss_append_drain {held left : List UInt8} {results : List (Except Error Frame)}
    (h : Reads held results left) : upToLoss (results ++ (⟨left⟩ : Reader).drain.1) =
      upToLoss (⟨held⟩ : Reader).drain.1 := by
  obtain ⟨pieces, hsound, rfl, rfl⟩ := h
  induction pieces with
  | nil => rfl
  | cons p pieces ih =>
    have ih := ih fun q hq => hsound q (List.mem_cons_of_mem p hq)
    have hp := hsound p List.mem_cons_self
    rw [List.flatMap_cons, List.append_assoc]
    by_cases hframed : p.Framed
    · rw [drain_append hframed]
      cases hg : p.gives with
      | none =>
        rw [List.filterMap_cons_none hg]
        exact ih
      | some result =>
        rw [List.filterMap_cons_some hg, List.cons_append, upToLoss_cons_of_framed hframed hg, ih]
        exact (upToLoss_cons_of_framed hframed hg _).symm
    · cases p with
      | noise | swapRequest | swapNow | events => exact absurd hp hframed
      | overlong size lost =>
        rw [drain_overlong hp]
        rfl

/-- However bytes are fed, a reader gives what a drain of all of them gives, up to the first length over
    the limit. -/
theorem upToLoss_decode (uses : List Use) :
    upToLoss (decode uses).1 = upToLoss (⟨fed uses⟩ : Reader).drain.1 :=
  upToLoss_append_drain (reads_useAll empty uses)

theorem upToLoss_of_not_mem {results : List (Except Error Frame)}
    (h : ∀ size, .error (.payloadTooLarge size) ∉ results) : upToLoss results = results := by
  fun_induction upToLoss results with
  | case1 => rfl
  | case2 size results => exact absurd List.mem_cons_self (h size)
  | case3 result results _ ih => rw [ih fun size hsize => h size (List.mem_cons_of_mem result hsize)]

/-- A length over the limit is not lost among the results. -/
theorem mem_upToLoss {size : Nat} {results : List (Except Error Frame)}
    (h : .error (.payloadTooLarge size) ∈ results) :
    ∃ size', .error (.payloadTooLarge size') ∈ upToLoss results := by
  fun_induction upToLoss results with
  | case1 => cases h
  | case2 size' results => exact ⟨size', List.mem_cons_self⟩
  | case3 result results hne ih =>
    rcases List.mem_cons.1 h with rfl | h
    · exact absurd rfl (hne size)
    · obtain ⟨size', hsize'⟩ := ih h
      exact ⟨size', List.mem_cons_of_mem result hsize'⟩

theorem not_mem_filterMap {pieces : List Piece} (h : ∀ p ∈ pieces, p.Framed) (size : Nat) :
    .error (.payloadTooLarge size) ∉ pieces.filterMap Piece.gives := by
  intro hmem
  obtain ⟨p, hp, hg⟩ := List.mem_filterMap.1 hmem
  cases p with
  | noise | swapRequest | swapNow => cases hg
  | overlong => exact h _ hp
  | events body =>
    rcases Piece.gives_events_cases body with ⟨text, -, hg'⟩ | ⟨-, hg'⟩ <;>
    · rw [hg'] at hg
      cases hg

/-- Where no length in some bytes is over the limit, what was read of a prefix of them is a prefix of what
    they give. -/
theorem prefix_drain {bytes held left : List UInt8} {results : List (Except Error Frame)}
    (h : Reads held results left) (hp : held <+: bytes)
    (hloss : ∀ size, .error (.payloadTooLarge size) ∉ (⟨bytes⟩ : Reader).drain.1) :
    results <+: (⟨bytes⟩ : Reader).drain.1 := by
  obtain ⟨more, rfl⟩ := hp
  have hall := upToLoss_append_drain (h.append more)
  rw [upToLoss_of_not_mem hloss] at hall
  have hnone : ∀ size, .error (.payloadTooLarge size) ∉
      results ++ (⟨left ++ more⟩ : Reader).drain.1 := by
    intro size hsize
    obtain ⟨size', hsize'⟩ := mem_upToLoss hsize
    exact hloss size' (hall ▸ hsize')
  rw [upToLoss_of_not_mem hnone] at hall
  exact ⟨_, hall⟩

/-- Bytes that are pieces, and then the beginning of a frame, are read as just that, however they are
    fed. -/
theorem decode_of_pieces {uses : List Use} {pieces : List Piece} {left : List UInt8}
    (hp : ∀ p ∈ pieces, p.Framed) (hl : Incomplete left)
    (hf : fed uses = pieces.flatMap Piece.bytes ++ left) :
    decode uses = (pieces.filterMap Piece.gives, ⟨left⟩) := by
  have hdrain : (⟨fed uses⟩ : Reader).drain = (pieces.filterMap Piece.gives, ⟨left⟩) := by
    rw [hf, drain_flatMap_append hp, hl.drain, List.append_nil]
  have hloss : upToLoss (decode uses).1 = pieces.filterMap Piece.gives := by
    rw [upToLoss_decode, hdrain]
    exact upToLoss_of_not_mem (not_mem_filterMap hp)
  -- The reader's own pieces are framed too, and a drain of them gives both.
  obtain ⟨hreads, hleft⟩ := reads_decode uses
  obtain ⟨pieces', hp', hf', hresults⟩ := hreads.framed fun size hmem => by
    obtain ⟨size', hsize'⟩ := mem_upToLoss hmem
    rw [hloss] at hsize'
    exact not_mem_filterMap hp size' hsize'
  rw [hf', drain_flatMap_append hp', hleft.drain, List.append_nil, ← hresults] at hdrain
  exact hdrain

end Reader
end Lockstep
