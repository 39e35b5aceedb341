import Lockstep.Barrier.Link
import Lockstep.Proofs.Frame.Pieces

/- A reader and the bytes of one frame.

   1. A reader that holds the bytes of a frame gives that frame and keeps what follows it
      (`next_encode_append`); while some of them are missing it gives nothing and keeps all it holds
      (`next_of_missing`).
   2. So a look for that frame passes over nothing, and changes nothing until all of the frame is
      there (`nextOf_cases`). -/
namespace Lockstep.Reader
open Lockstep.Frame

/-- A frame that is all there is read, and what follows it is kept. -/
theorem next_encode_append {f : Frame} {bytes : List UInt8} (h : f.encode = .ok bytes)
    (rest : List UInt8) : (⟨bytes ++ rest⟩ : Reader).next = (some (.ok f), ⟨rest⟩) := by
  obtain ⟨p, hframed, rfl, hgives⟩ := exists_piece_of_encode h
  rw [next_append hframed, hgives, if_neg nofun]

theorem next_encode {f : Frame} {bytes : List UInt8} (h : f.encode = .ok bytes) :
    (⟨bytes⟩ : Reader).next = (some (.ok f), ⟨[]⟩) := by
  have := next_encode_append h []
  rwa [List.append_nil] at this

/-- The beginning of a frame of events is incomplete. -/
theorem incomplete_of_encode_events {text : String} {held rest : List UInt8}
    (h : (Frame.events text).encode = .ok (held ++ rest)) (hr : rest ≠ []) : Incomplete held := by
  rw [encode] at h
  split at h
  · cases h
  · rename_i hsize
    have hsize := Nat.le_of_not_lt hsize
    have hword := Word.length_encode Word.uint32 (UInt32.ofNat text.utf8ByteSize)
    refine .inr ⟨_, utf8 text, rest, Except.ok.inj h, hr, hword, ?_, fun _ => hsize⟩
    rw [Word.decode_encode, toNat_ofNat_of_le_maxPayload hsize, length_utf8]

/-- A frame of which something is missing is not read, and what is there of it is kept. -/
theorem next_of_missing {f : Frame} {held rest : List UInt8} (h : f.encode = .ok (held ++ rest))
    (hr : rest ≠ []) : (⟨held⟩ : Reader).next = (none, ⟨held⟩) := by
  have hnil : f.wireSize = 1 → held = [] := fun hone => by
    have hlength := length_encode h
    have := List.length_pos_iff.2 hr
    rw [List.length_append, hone] at hlength
    exact List.length_eq_zero_iff.1 (by omega)
  cases f with
  | swapRequest =>
    rw [hnil rfl]
    rfl
  | swapNow =>
    rw [hnil rfl]
    rfl
  | events text => exact (incomplete_of_encode_events h hr).next

/-! ## Looking for a kind -/

theorem nextOf_of_next_none {r r' : Reader} (h : r.next = (none, r')) (want : Frame.Kind) :
    r.nextOf want = (.ok none, r') ∧ r.passedBy want = [] := by
  rw [nextOf, passedBy]
  constructor <;> split <;> simp_all

theorem nextOf_of_next_ok {r r' : Reader} {f : Frame} (h : r.next = (some (.ok f), r')) :
    r.nextOf f.kind = (.ok (some f), r') ∧ r.passedBy f.kind = [] := by
  rw [nextOf, passedBy]
  constructor <;> split <;> simp_all

theorem nextOf_nil (want : Frame.Kind) :
    (⟨[]⟩ : Reader).nextOf want = (.ok none, ⟨[]⟩) ∧ (⟨[]⟩ : Reader).passedBy want = [] :=
  nextOf_of_next_none rfl want

/-- A reader that holds the beginning of a frame, and of nothing else, finds that frame when nothing
    of it is missing, and else finds nothing. -/
theorem nextOf_cases {f : Frame} {held rest : List UInt8} (h : f.encode = .ok (held ++ rest)) :
    (⟨held⟩ : Reader).passedBy f.kind = [] ∧
      (⟨held⟩ : Reader).nextOf f.kind =
        if rest = [] then (.ok (some f), ⟨[]⟩) else (.ok none, ⟨held⟩) := by
  by_cases hr : rest = []
  · subst hr
    rw [List.append_nil] at h
    rw [if_pos rfl]
    exact (nextOf_of_next_ok (next_encode h)).symm
  · rw [if_neg hr]
    exact (nextOf_of_next_none (next_of_missing h hr) f.kind).symm

end Lockstep.Reader
