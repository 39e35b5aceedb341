import Lockstep.Bytes.Operation

/- What operations do to a tape.

   1. `Overwritten`: data stand at the write cursor, which is behind them, and everything else is as it
      was. `Onward`: the read cursor is further on, and nothing else has changed.
   2. As long as both cursors lie within the buffer, every value is written as its bytes (`Item.bytes`,
      `Within.put_eq`), every writing overwrites (`Within.overwritten`), and every reading goes onward
      (`onward_get`). So they do after any operation, and in any tape that operations lead to
      (`Within.perform`, `Reachable.within`).
   3. A word is read when all of its bytes are left, and else nothing is (`Within.readWord_append`,
      `readWord_of_lt`); a blob, when its length and all that the length announces are left
      (`Within.readBlob_append`, `Within.readBlob_of_lt`). -/
namespace Lockstep.Tape
variable {α : Type} {t t' t'' : Tape} {data : List UInt8}

/-! ## Writing -/

/-- The tape with data over what stood at its write cursor. -/
structure Overwritten (t : Tape) (data : List UInt8) (t' : Tape) : Prop where
  length : t'.bytes.length = max t.bytes.length (t.writePos + data.length)
  written : ∀ i < data.length, t'.bytes[t.writePos + i]? = data[i]?
  kept : ∀ i, i < t.writePos ∨ t.writePos + data.length ≤ i → t'.bytes[i]? = t.bytes[i]?
  writePos : t'.writePos = t.writePos + data.length
  readPos : t'.readPos = t.readPos

theorem Within.overwritten (h : t.Within) (data : List UInt8) : t.Overwritten data (t.write data) := by
  have hfront : (t.bytes.take t.writePos).length = t.writePos := List.length_take_of_le h.2
  have hboth : (t.bytes.take t.writePos ++ data).length = t.writePos + data.length := by
    rw [List.length_append, hfront]
  refine ⟨?_, fun i hi => ?_, fun i hi => ?_, rfl, rfl⟩
  · rw [Tape.write, List.length_append, hboth, List.length_drop]
    omega
  · rw [Tape.write, List.getElem?_append_left (by omega), List.getElem?_append_right (by omega), hfront,
      Nat.add_sub_cancel_left]
  · rcases hi with hlt | hle
    · rw [Tape.write, List.append_assoc, List.getElem?_append_left (by omega), List.getElem?_take_of_lt hlt]
    · rw [Tape.write, List.getElem?_append_right (by omega), hboth, List.getElem?_drop,
        Nat.add_sub_cancel' hle]

/-- Of what is written in two goes, the second part stands behind the first. -/
theorem Within.write_write (h : t.Within) (a b : List UInt8) : (t.write a).write b = t.write (a ++ b) := by
  have hboth : (t.bytes.take t.writePos ++ a).length = t.writePos + a.length := by
    rw [List.length_append, List.length_take_of_le h.2]
  have hfront : (t.write a).bytes.take (t.writePos + a.length) = t.bytes.take t.writePos ++ a := by
    rw [Tape.write, ← hboth, List.take_left]
  have hback : (t.write a).bytes.drop (t.writePos + a.length + b.length) =
      t.bytes.drop (t.writePos + (a ++ b).length) := by
    rw [Tape.write, ← List.drop_drop, ← hboth, List.drop_left, List.drop_drop, hboth, List.length_append,
      Nat.add_assoc]
  show Tape.mk ((t.write a).bytes.take (t.writePos + a.length) ++ b ++
      (t.write a).bytes.drop (t.writePos + a.length + b.length)) t.readPos (t.writePos + a.length + b.length) =
    t.write (a ++ b)
  rw [hfront, hback, List.append_assoc (t.bytes.take _), Tape.write, List.length_append, Nat.add_assoc]

/-- A byte string with its length in front. -/
def blobBytes (b : Blob) : List UInt8 := Word.int32.encode (lengthWord b.bytes.length) ++ b.bytes

theorem Within.writeBlob_eq (h : t.Within) (b : Blob) : t.writeBlob b = t.write (blobBytes b) :=
  h.write_write _ _

/-- The bytes that a value is written as. -/
def Item.bytes : Item → List UInt8
  | ⟨.uint8, x⟩ => Word.uint8.encode x
  | ⟨.int32, x⟩ => Word.int32.encode x
  | ⟨.uint32, x⟩ => Word.uint32.encode x
  | ⟨.int64, x⟩ => Word.int64.encode x
  | ⟨.binary32, x⟩ => Word.binary32.encode x
  | ⟨.text, s⟩ => blobBytes ⟨utf8 s⟩
  | ⟨.bytes, data⟩ => blobBytes ⟨data⟩
  | ⟨.blob, b⟩ => blobBytes b

/-- A value is written as its bytes. -/
theorem Within.put_eq (h : t.Within) (i : Item) : t.put i.shape i.value = t.write i.bytes := by
  obtain ⟨shape, value⟩ := i
  cases shape with
  | text => exact h.writeBlob_eq _
  | bytes => exact h.writeBlob_eq _
  | blob => exact h.writeBlob_eq _
  | _ => rfl

/-- The bytes that an operation writes, if it writes any. -/
def Operation.written? : Operation → Option (List UInt8)
  | .put i => some i.bytes
  | .write data => some data
  | _ => none

theorem Within.perform_eq_write (h : t.Within) {op : Operation} (hop : op.written? = some data) :
    t.perform op = t.write data := by
  cases op with
  | put i =>
    obtain rfl : i.bytes = data := Option.some.inj hop
    exact h.put_eq i
  | write data' =>
    obtain rfl : data' = data := Option.some.inj hop
    rfl
  | _ => cases hop

/-! ## Reading -/

/-- The tape with its read cursor further on. -/
structure Onward (t t' : Tape) : Prop where
  bytes : t'.bytes = t.bytes
  writePos : t'.writePos = t.writePos
  le : t.readPos ≤ t'.readPos
  within : t.readPos ≤ t.bytes.length → t'.readPos ≤ t.bytes.length

theorem Onward.refl (t : Tape) : t.Onward t := ⟨rfl, rfl, Nat.le_refl _, id⟩

theorem Onward.trans (h : t.Onward t') (h' : t'.Onward t'') : t.Onward t'' where
  bytes := h'.bytes.trans h.bytes
  writePos := h'.writePos.trans h.writePos
  le := Nat.le_trans h.le h'.le
  within hread := by
    have hlater := h'.within
    rw [h.bytes] at hlater
    exact hlater (h.within hread)

theorem Within.onward (h : t.Within) (hon : t.Onward t') : t'.Within := by
  rw [Within, hon.bytes, hon.writePos]
  exact ⟨hon.within h.1, h.2⟩

theorem onward_take? {n : Nat} (h : t.take? n = some (data, t')) : t.Onward t' := by
  unfold take? at h
  split at h
  · rename_i hle
    cases h
    exact ⟨rfl, rfl, Nat.le_add_right .., fun _ => hle⟩
  · cases h

theorem onward_readWord (t : Tape) (w : Word α) : t.Onward (t.readWord w).2 := by
  unfold readWord
  split
  · rename_i htake
    exact onward_take? htake
  · exact .refl t

theorem onward_readBlob (t : Tape) : t.Onward t.readBlob.2 := by
  have hword := t.onward_readWord .int32
  unfold readBlob
  dsimp only
  split
  · exact hword
  · split
    · rename_i htake
      exact hword.trans (onward_take? htake)
    · exact .refl t

theorem onward_get (t : Tape) (s : Shape) : t.Onward (t.get s).2 := by
  cases s with
  | text => exact t.onward_readBlob
  | bytes => exact t.onward_readBlob
  | blob => exact t.onward_readBlob
  | _ => exact t.onward_readWord _

/-! ## The cursors stay within the buffer -/

theorem Within.perform (h : t.Within) (op : Operation) : (t.perform op).Within := by
  cases op with
  | put i =>
    have hop : (Operation.put i).written? = some i.bytes := rfl
    rw [h.perform_eq_write hop]
    exact h.write _
  | write data => exact h.write data
  | get s => exact h.onward (t.onward_get s)
  | setReadPos n => exact h.setReadPos n
  | setWritePos n => exact h.setWritePos n
  | resize n => exact h.resize n
  | clear => exact within_empty

/-- Whatever was done to a tape, its cursors lie within its buffer. -/
theorem Reachable.within (h : Reachable t) : t.Within := by
  induction h with
  | empty => exact within_empty
  | withRoom n => exact within_empty
  | ofBytes bytes => exact within_ofBytes bytes
  | perform _ op ih => exact ih.perform op

/-! ## Words -/

/-- The bytes from the read cursor on. -/
def unread (t : Tape) : List UInt8 := t.bytes.drop t.readPos

/-- The tape with its read cursor `n` bytes further on. -/
def skip (t : Tape) (n : Nat) : Tape := { t with readPos := t.readPos + n }

theorem length_unread (t : Tape) : t.unread.length = t.remaining := List.length_drop

theorem skip_skip (t : Tape) (m n : Nat) : (t.skip m).skip n = t.skip (m + n) := by
  simp only [skip, Nat.add_assoc]

section
variable {n : Nat} {rest : List UInt8}

theorem unread_skip (hn : data.length = n) (hunread : t.unread = data ++ rest) :
    (t.skip n).unread = rest := by
  subst hn
  show t.bytes.drop (t.readPos + data.length) = rest
  rw [← List.drop_drop]
  exact (congrArg (List.drop data.length) hunread).trans (List.drop_left ..)

/-- What stands at the read cursor is taken, and the cursor moves behind it. -/
theorem Within.take?_append (h : t.Within) (hn : data.length = n) (hunread : t.unread = data ++ rest) :
    t.take? n = some (data, t.skip n) := by
  subst hn
  have hlength := t.length_unread
  have hread := h.1
  rw [hunread, List.length_append, remaining] at hlength
  have htake : (t.bytes.drop t.readPos).take data.length = data :=
    (congrArg (List.take data.length) hunread).trans (List.take_left ..)
  rw [take?, if_pos (by omega), htake, skip]

theorem take?_of_lt (h : t.remaining < n) : t.take? n = none := by
  rw [remaining] at h
  exact if_neg (by omega)

theorem Within.readWord_append (h : t.Within) {w : Word α} (hsize : data.length = w.size)
    (hunread : t.unread = data ++ rest) : t.readWord w = (w.decode data, t.skip w.size) := by
  simp only [readWord, h.take?_append hsize hunread]

/-- Of a word that is not all there, nothing is read. -/
theorem readWord_of_lt {w : Word α} (h : t.remaining < w.size) : t.readWord w = (w.ofNat 0, t) := by
  simp only [readWord, take?_of_lt h]

end

/-- How many bytes a value takes, where all values of the shape take as many. -/
def Shape.size? : Shape → Option Nat
  | .uint8 => some 1
  | .int32 => some 4
  | .uint32 => some 4
  | .int64 => some 8
  | .binary32 => some 4
  | _ => none

/-- Zero, or the value without bytes. -/
def Shape.zero : (s : Shape) → s.Carrier
  | .uint8 => 0
  | .int32 => 0
  | .uint32 => 0
  | .int64 => 0
  | .binary32 => ⟨0⟩
  | .text => ""
  | .bytes => []
  | .blob => ⟨[]⟩

theorem get_of_remaining_lt {s : Shape} {n : Nat} (hs : s.size? = some n) (h : t.remaining < n) :
    t.get s = (s.zero, t) := by
  cases s with
  | text => cases hs
  | bytes => cases hs
  | blob => cases hs
  | _ =>
    obtain rfl := Option.some.inj hs
    exact readWord_of_lt h

/-! ## Byte strings -/

/-- What four bytes announce: the number that they make, most significant byte first, in two's complement. -/
def announced (size : List UInt8) : Int := (ofBigEndian size : Int).bmod (2 ^ 32)

theorem toInt_decode_int32 (size : List UInt8) : (Word.int32.decode size).toInt = announced size := by
  show (UInt32.ofNat (ofBigEndian size)).toInt32.toInt = _
  rw [UInt32.toInt32_ofNat', Int32.toInt_ofNat']
  rfl

/-- Without a length, there is no byte string. -/
theorem readBlob_of_remaining_lt (h : t.remaining < 4) : t.readBlob = (⟨[]⟩, t) := by
  have hword := readWord_of_lt (w := .int32) h
  simp only [readBlob, hword]
  rfl

section
variable {size rest : List UInt8}

/-- A length of zero or less is read, and nothing behind it. -/
theorem Within.readBlob_of_nonpos (h : t.Within) (hsize : size.length = 4) (hunread : t.unread = size ++ rest)
    (hnone : announced size ≤ 0) : t.readBlob = (⟨[]⟩, t.skip 4) := by
  have hword := h.readWord_append (w := .int32) hsize hunread
  simp only [readBlob, hword, toInt_decode_int32, if_pos hnone]
  rfl

/-- What a length announces is read with it, if it is all there. -/
theorem Within.readBlob_append (h : t.Within) (hsize : size.length = 4)
    (hunread : t.unread = size ++ (data ++ rest)) (hpos : 0 < data.length)
    (hall : announced size = data.length) : t.readBlob = (⟨data⟩, t.skip (4 + data.length)) := by
  have hword := h.readWord_append (w := .int32) hsize hunread
  have hon := t.onward_readWord .int32
  rw [hword] at hon
  have htake := (h.onward hon).take?_append rfl (unread_skip hsize hunread)
  have hsome : ¬ (data.length : Int) ≤ 0 := by omega
  simp only [readBlob, hword, toInt_decode_int32, hall, Int.toNat_natCast, htake, if_neg hsome, skip_skip]
  rfl

/-- Where more is announced than there is, not even the length is read. -/
theorem Within.readBlob_of_lt (h : t.Within) (hsize : size.length = 4) (hunread : t.unread = size ++ rest)
    (hmore : rest.length < announced size) : t.readBlob = (⟨[]⟩, t) := by
  have hword := h.readWord_append (w := .int32) hsize hunread
  have hrest : (t.skip Word.int32.size).unread = rest := unread_skip hsize hunread
  have hleft : (t.skip Word.int32.size).remaining < (announced size).toNat := by
    rw [← length_unread, hrest]
    omega
  have hsome : ¬ announced size ≤ 0 := by omega
  simp only [readBlob, hword, toInt_decode_int32, take?_of_lt hleft, if_neg hsome]

end

/-- Wherever operations have led, both cursors lie within the buffer. A writing replaces the bytes at the write
    cursor and goes behind them, growing the buffer where it must; a reading moves the read cursor alone. Of a
    word that is not all there, nothing is read and zero is given. A byte string is read when all that its
    length announces is there; a length of zero or less is read alone; else nothing is. -/
theorem cursor_law (h : Reachable t) :
    t.Within ∧
    (∀ {op : Operation} {data : List UInt8}, op.written? = some data → t.Overwritten data (t.perform op)) ∧
    (∀ s : Shape, (t.get s).2.bytes = t.bytes ∧ (t.get s).2.writePos = t.writePos) ∧
    (∀ {s : Shape} {n : Nat}, s.size? = some n → t.remaining < n → t.get s = (s.zero, t)) ∧
    (t.remaining < 4 → t.get .bytes = ([], t)) ∧
    ∀ {size rest : List UInt8}, size.length = 4 → t.unread = size ++ rest →
      (announced size ≤ 0 → t.get .bytes = ([], t.skip 4)) ∧
      (∀ {data more : List UInt8}, rest = data ++ more → 0 < data.length → announced size = data.length →
        t.get .bytes = (data, t.skip (4 + data.length))) ∧
      (rest.length < announced size → t.get .bytes = ([], t)) := by
  have hwithin := h.within
  have hbytes : ∀ {data t'}, t.readBlob = (⟨data⟩, t') → t.get .bytes = (data, t') := fun hblob => by
    simp only [get, hblob, Prod.map_apply, id_eq]
  refine ⟨hwithin, fun hop => ?_, fun s => ?_, get_of_remaining_lt, fun hlt => ?_, fun hsize hunread =>
    ⟨fun hnone => ?_, fun hrest hpos hall => ?_, fun hmore => ?_⟩⟩
  · rw [hwithin.perform_eq_write hop]
    exact hwithin.overwritten _
  · exact ⟨(t.onward_get s).bytes, (t.onward_get s).writePos⟩
  · exact hbytes (readBlob_of_remaining_lt hlt)
  · exact hbytes (hwithin.readBlob_of_nonpos hsize hunread hnone)
  · exact hbytes (hwithin.readBlob_append hsize (hrest ▸ hunread) hpos hall)
  · exact hbytes (hwithin.readBlob_of_lt hsize hunread hmore)

/-- A tape that was cut within a byte string, with its write cursor put back into the length of it. -/
def cutShort : Tape :=
  (ofBytes [9, 0, 0, 0, 5, 1, 2, 3, 4, 5]).after [.get .uint8, .resize 8, .setWritePos 3]

theorem cursor_law_cutShort :
    Reachable cutShort ∧ cutShort = ⟨[9, 0, 0, 0, 5, 1, 2, 3], 1, 3⟩ ∧ cutShort.Within ∧
      cutShort.Overwritten (blobBytes ⟨[7]⟩) (cutShort.perform (.put ⟨.bytes, [7]⟩)) ∧
      (cutShort.get .int64).2.bytes = cutShort.bytes ∧ cutShort.get .int64 = (0, cutShort) ∧
      cutShort.get .bytes = ([], cutShort) := by
  have hreachable : Reachable cutShort := (Reachable.ofBytes _).after _
  have hlaw := cursor_law hreachable
  obtain ⟨hwithin, hwrite, hread, hword, -, hblob⟩ := hlaw
  have hunread : cutShort.unread = [0, 0, 0, 5] ++ [1, 2, 3] := by decide
  exact ⟨hreachable, by decide, hwithin, hwrite rfl, (hread .int64).1, hword rfl (by decide),
    (hblob rfl hunread).2.2 (by decide)⟩

end Lockstep.Tape
