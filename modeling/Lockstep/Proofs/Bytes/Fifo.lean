import Mathlib.Data.List.Infix
import Mathlib.Data.List.TakeDrop
import Lockstep.Proofs.Bytes.Cursors

/- What is written to a tape is read from it in the same order.

   1. A tape `Holds` bytes when they lie between its read cursor and its end and the write cursor is at
      the end. Writing adds bytes behind them (`Holds.write`); where the read cursor goes on, there are
      those behind it (`Holds.skip`).
   2. A tape that holds the bytes of a value in front of others gives the value when it is asked for its
      shape, and holds the others then (`Holds.get`).
   3. So values that are written and read in step form a queue: the first ones written have been read, and
      the tape holds the bytes of the others (`Holds.run`, `run_of_inStep`). -/
namespace Lockstep.Tape
variable {α : Type} {t : Tape} {data rest : List UInt8} {n : Nat}

/-- The bytes between the read cursor and the end, where the write cursor is. -/
structure Holds (t : Tape) (rest : List UInt8) : Prop where
  writePos : t.writePos = t.bytes.length
  readPos : t.readPos ≤ t.bytes.length
  unread : t.bytes.drop t.readPos = rest

theorem holds_empty : empty.Holds [] := ⟨rfl, Nat.le_refl 0, rfl⟩

theorem Holds.within (h : t.Holds rest) : t.Within := ⟨h.readPos, Nat.le_of_eq h.writePos⟩

theorem Holds.remaining (h : t.Holds rest) : t.remaining = rest.length := by
  rw [Tape.remaining, ← h.unread, List.length_drop]

/-! ## Bytes -/

/-- What is written stands behind what was there. -/
theorem Holds.write (h : t.Holds rest) (data : List UInt8) : (t.write data).Holds (rest ++ data) := by
  have hbytes : (t.write data).bytes = t.bytes ++ data := by
    have hover : t.bytes.length ≤ t.bytes.length + data.length := Nat.le_add_right ..
    rw [Tape.write, h.writePos, List.take_length, List.drop_eq_nil_of_le hover, List.append_nil]
  refine ⟨?_, ?_, ?_⟩
  · rw [hbytes, List.length_append, Tape.write, h.writePos]
  · rw [hbytes, List.length_append]
    exact Nat.le_trans h.readPos (Nat.le_add_right ..)
  · rw [hbytes, ← h.unread]
    exact List.drop_append_of_le_length h.readPos

/-- Behind the bytes in front are the others. -/
theorem Holds.skip (h : t.Holds (data ++ rest)) (hn : data.length = n) : (t.skip n).Holds rest := by
  have htake := h.within.take?_append hn h.unread
  exact ⟨h.writePos, (h.within.onward (onward_take? htake)).1, unread_skip hn h.unread⟩

/-! ## Values -/

theorem Holds.readWord {w : Word α} {x : α} (h : t.Holds (w.encode x ++ rest)) :
    ∃ t', t.readWord w = (x, t') ∧ t'.Holds rest := by
  have hsize := Word.length_encode w x
  refine ⟨t.skip w.size, ?_, h.skip hsize⟩
  rw [h.within.readWord_append hsize h.unread, Word.decode_encode]

theorem length_blobBytes_pos (b : Blob) : 0 < (blobBytes b).length := by
  rw [blobBytes, List.length_append, Word.length_encode]
  exact Nat.add_pos_left (by decide) _

/-- A length that a signed word can hold is read as it is, so that all of the bytes are read. -/
theorem Holds.readBlob {b : Blob} (hb : b.bytes.length < 2 ^ 31) (h : t.Holds (blobBytes b ++ rest)) :
    ∃ t', t.readBlob = (b, t') ∧ t'.Holds rest := by
  have hsize := Word.length_encode .int32 (lengthWord b.bytes.length)
  have hall : announced (Word.int32.encode (lengthWord b.bytes.length)) = b.bytes.length := by
    rw [← toInt_decode_int32, Word.decode_encode]
    exact Int32.toInt_ofNat_of_lt hb
  rcases Nat.eq_zero_or_pos b.bytes.length with hempty | hpos
  · -- Nothing follows a length that announces nothing.
    have hnil : b.bytes = [] := List.eq_nil_of_length_eq_zero hempty
    rw [blobBytes, hnil, List.append_nil, ← hnil] at h
    have hblob := h.within.readBlob_of_nonpos hsize h.unread (by omega)
    rw [← hnil] at hblob
    exact ⟨t.skip 4, hblob, h.skip hsize⟩
  · have hlength : (blobBytes b).length = 4 + b.bytes.length := by
      rw [blobBytes, List.length_append, hsize]
      rfl
    have hunread := h.unread
    rw [blobBytes, List.append_assoc] at hunread
    exact ⟨_, h.within.readBlob_append hsize hunread hpos hall, h.skip hlength⟩

theorem Holds.readText {s : String} (hs : (utf8 s).length < 2 ^ 31)
    (h : t.Holds (blobBytes ⟨utf8 s⟩ ++ rest)) : ∃ t', t.readText = (s, t') ∧ t'.Holds rest := by
  obtain ⟨t', hblob, hrest⟩ := h.readBlob hs
  refine ⟨t', ?_, hrest⟩
  simp only [Tape.readText, hblob, ofUtf8?_utf8, Option.getD_some]

namespace Item

/-- The length of what goes after a length is one that a signed word can hold. -/
def Fits : Item → Prop
  | ⟨.text, s⟩ => s.utf8ByteSize < 2 ^ 31
  | ⟨.bytes, data⟩ => data.length < 2 ^ 31
  | ⟨.blob, b⟩ => b.bytes.length < 2 ^ 31
  | _ => True

/-- No value is written as nothing. -/
theorem length_bytes_pos (i : Item) : 0 < i.bytes.length := by
  obtain ⟨shape, value⟩ := i
  cases shape with
  | text => exact length_blobBytes_pos _
  | bytes => exact length_blobBytes_pos _
  | blob => exact length_blobBytes_pos _
  | _ => exact Nat.lt_of_lt_of_eq (by decide) (Word.length_encode ..).symm

end Item

theorem Holds.put (h : t.Holds rest) (i : Item) :
    (t.put i.shape i.value).Holds (rest ++ i.bytes) := by
  rw [h.within.put_eq i]
  exact h.write i.bytes

theorem Holds.get {i : Item} (hi : i.Fits) (h : t.Holds (i.bytes ++ rest)) :
    ∃ t', t.get i.shape = (i.value, t') ∧ t'.Holds rest := by
  obtain ⟨shape, value⟩ := i
  cases shape with
  | text => exact h.readText hi
  | bytes =>
    obtain ⟨t', hblob, hrest⟩ := h.readBlob hi
    exact ⟨t', by simp only [Tape.get, hblob, Prod.map_apply, id_eq], hrest⟩
  | blob => exact h.readBlob hi
  | _ => exact h.readWord

/-! ## Calls -/

section
open Call
variable {calls : List Call}

instance (calls : List Call) : Decidable (InStep calls) :=
  decidable_of_iff (∀ done ∈ calls.inits, asked done <+: (written done).map Item.shape)
    (by simp only [InStep, List.mem_inits])

theorem length_flatMap_bytes_eq_zero {items : List Item} :
    (items.flatMap Item.bytes).length = 0 ↔ items = [] := by
  cases items with
  | nil => simp
  | cons i items =>
    have := i.length_bytes_pos
    rw [List.flatMap_cons, List.length_append]
    exact ⟨fun h => by omega, nofun⟩

/-- From a tape with values that are still to be read, calls read those first, and then what they have
    written themselves. -/
theorem Holds.run {pending : List Item} (h : t.Holds (pending.flatMap Item.bytes))
    (hfits : ∀ i ∈ pending ++ written calls, i.Fits)
    (hstep : ∀ done, done <+: calls → asked done <+: (pending ++ written done).map Item.shape) :
    ∃ t', t.run calls = ((pending ++ written calls).take (asked calls).length, t') ∧
      t'.Holds (((pending ++ written calls).drop (asked calls).length).flatMap Item.bytes) := by
  induction calls generalizing t pending with
  | nil => exact ⟨t, rfl, by simpa [written, asked] using h⟩
  | cons call calls ih =>
    cases call with
    | put i =>
      -- The value joins those that are still to be read, as the last of them.
      have hput : (t.put i.shape i.value).Holds ((pending ++ [i]).flatMap Item.bytes) := by
        rw [List.flatMap_append, List.flatMap_singleton]
        exact h.put i
      have hcons : ∀ done, pending ++ written (.put i :: done) = (pending ++ [i]) ++ written done :=
        fun done => by rw [written, List.append_assoc, List.singleton_append]
      rw [hcons] at hfits ⊢
      refine ih hput hfits fun done hdone => ?_
      have := hstep (.put i :: done) (List.cons_prefix_cons.2 ⟨rfl, hdone⟩)
      rwa [hcons] at this
    | get s =>
      -- Something is still to be read, and the first of it has the shape that is asked for.
      have hfirst := hstep [.get s] (List.cons_prefix_cons.2 ⟨rfl, List.nil_prefix⟩)
      cases pending with
      | nil => exact absurd (List.prefix_nil.1 hfirst) (List.cons_ne_nil s [])
      | cons i pending =>
        obtain rfl : s = i.shape := (List.cons_prefix_cons.1 hfirst).1
        rw [List.flatMap_cons] at h
        obtain ⟨t₁, hget, h₁⟩ := h.get (hfits i List.mem_cons_self)
        obtain ⟨t', hrun, h'⟩ := ih h₁ (fun j hj => hfits j (List.mem_cons_of_mem i hj)) fun done hdone =>
          (List.cons_prefix_cons.1 (hstep (.get i.shape :: done)
            (List.cons_prefix_cons.2 ⟨rfl, hdone⟩))).2
        refine ⟨t', ?_, h'⟩
        simp only [Tape.run, hget, hrun]
        rfl

/-- Where each reading comes after the writing of the same number and asks for the shape written there, it
    gives the value written there, bit for bit. Nothing remains on the tape exactly when all that was
    written has been read. -/
theorem run_of_inStep (hstep : InStep calls) (hfits : ∀ i ∈ written calls, i.Fits) :
    (empty.run calls).1 = (written calls).take (asked calls).length ∧
      ((empty.run calls).2.remaining = 0 ↔ (empty.run calls).1 = written calls) := by
  have hnone : empty.Holds (([] : List Item).flatMap Item.bytes) := holds_empty
  obtain ⟨t, hrun, ht⟩ := hnone.run hfits hstep
  rw [List.nil_append] at hrun ht
  refine ⟨by rw [hrun], ?_⟩
  calc (empty.run calls).2.remaining = 0
      ↔ (written calls).drop (asked calls).length = [] := by
        rw [hrun, ht.remaining, length_flatMap_bytes_eq_zero]
    _ ↔ (written calls).length ≤ (asked calls).length := List.drop_eq_nil_iff
    _ ↔ (empty.run calls).1 = written calls := by rw [hrun, List.take_eq_self_iff]

/-- Every shape, with a byte that is zero, a text of more bytes than characters, a number that is none, an
    empty byte string and a blob that looks like a length; values are read while others are written, and
    the last of them stays unread. -/
def mingled : List Call :=
  [.put ⟨.uint8, 0⟩, .put ⟨.text, "sé"⟩, .get .uint8, .put ⟨.binary32, ⟨0x7f800001⟩⟩, .put ⟨.bytes, []⟩,
    .get .text, .get .binary32, .put ⟨.int64, -2⟩, .get .bytes, .put ⟨.blob, ⟨[0, 0, 0, 9]⟩⟩, .get .int64,
    .put ⟨.int32, -1⟩, .put ⟨.uint32, 7⟩, .get .blob, .get .int32]

theorem run_mingled :
    InStep mingled ∧ (∀ i ∈ written mingled, i.Fits) ∧
      (empty.run mingled).1 = (written mingled).take 7 ∧
      ((empty.run mingled).2.remaining = 0 ↔ (empty.run mingled).1 = written mingled) := by
  have hstep : InStep mingled := by decide
  have hfits : ∀ i ∈ written mingled, i.Fits := by
    simp only [mingled, written, List.forall_mem_cons, Item.Fits, List.not_mem_nil, false_implies,
      implies_true, and_true, true_and]
    decide
  exact ⟨hstep, hfits, run_of_inStep hstep hfits⟩

end

end Lockstep.Tape
