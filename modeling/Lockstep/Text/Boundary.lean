import Lockstep.Text.Cut

/- A text as bytes, and the boundaries between its characters.

   1. `bytesOf` are the bytes of a text in UTF-8. A character below U+0080 is one byte; all bytes of any
      other are 128 or above, so no byte of it is taken for another character (`eq_toUInt8_iff`).
   2. `splitAt?` parts a text at an offset in bytes, unless a character lies across it or the text ends
      before it. The offsets that have two parts are the boundaries of the text. -/
namespace Lockstep.Text

/-- The bytes of a text. -/
def bytesOf (cs : List Char) : List UInt8 := cs.flatMap String.utf8EncodeChar

/-- The parts of a text before and after an offset. -/
def splitAt? : Nat → List Char → Option (List Char × List Char)
  | 0, cs => some ([], cs)
  | _ + 1, [] => none
  | n + 1, c :: cs =>
    if c.utf8Size ≤ n + 1 then
      (splitAt? (n + 1 - c.utf8Size) cs).map fun parts => (c :: parts.1, parts.2)
    else none

/-- An offset between two characters of a text, or at one of its ends. -/
def IsBoundary (cs : List Char) (n : Nat) : Prop := ∃ before after, cs = before ++ after ∧ byteSize before = n

/-! ## Bytes -/

@[simp] theorem bytesOf_nil : bytesOf [] = [] := rfl

@[simp] theorem bytesOf_cons (c : Char) (cs : List Char) :
    bytesOf (c :: cs) = String.utf8EncodeChar c ++ bytesOf cs := rfl

@[simp] theorem bytesOf_append (a b : List Char) : bytesOf (a ++ b) = bytesOf a ++ bytesOf b :=
  List.flatMap_append

@[simp] theorem length_bytesOf (cs : List Char) : (bytesOf cs).length = byteSize cs := by
  induction cs with
  | nil => rfl
  | cons c cs ih => rw [bytesOf_cons, List.length_append, String.length_utf8EncodeChar, ih, byteSize_cons]

theorem size_utf8Encode (cs : List Char) : cs.utf8Encode.size = byteSize cs := by
  induction cs with
  | nil => rfl
  | cons c cs ih =>
    have hone : [c].utf8Encode.size = c.utf8Size := by
      rw [List.utf8Encode_singleton, List.size_toByteArray, String.length_utf8EncodeChar]
    rw [List.utf8Encode_cons, ByteArray.size_append, hone, ih, byteSize_cons]

theorem length_le_byteSize (cs : List Char) : cs.length ≤ byteSize cs := by
  induction cs with
  | nil => exact Nat.le_refl 0
  | cons c cs ih =>
    have hc := c.utf8Size_pos
    rw [List.length_cons, byteSize_cons]
    omega

/-- A text is as long as its characters are. -/
theorem byteSize_toList (text : String) : byteSize text.toList = text.utf8ByteSize := by
  have hsize : (String.ofList text.toList).toByteArray.size = byteSize text.toList := by
    rw [String.toByteArray_ofList, size_utf8Encode]
  rw [String.ofList_toList] at hsize
  exact hsize.symm

/-- A character below U+0080 is its byte. -/
theorem utf8EncodeChar_of_lt {c : Char} (h : c.toNat < 128) :
    String.utf8EncodeChar c = [c.toUInt8] := by
  unfold String.utf8EncodeChar
  exact if_pos (Nat.le_of_lt_succ h)

/-- The bytes of any other character are no bytes of one below U+0080. -/
theorem le_of_mem_utf8EncodeChar {c : Char} (h : 128 ≤ c.toNat) {b : UInt8}
    (hb : b ∈ String.utf8EncodeChar c) : 128 ≤ b.toNat := by
  have hvalue : ¬ c.val.toNat ≤ 127 := Nat.not_le.2 h
  unfold String.utf8EncodeChar at hb
  dsimp only at hb
  rw [if_neg hvalue] at hb
  have hhigh : ∀ n, 128 ≤ n → n < 256 → 128 ≤ (UInt8.ofNat n).toNat := by
    intro n hlow hn
    rwa [UInt8.toNat_ofNat_of_lt' hn]
  split at hb
  · simp only [List.mem_cons, List.not_mem_nil, or_false] at hb
    rcases hb with rfl | rfl <;> exact hhigh _ (by omega) (by omega)
  · split at hb
    · simp only [List.mem_cons, List.not_mem_nil, or_false] at hb
      rcases hb with rfl | rfl | rfl <;> exact hhigh _ (by omega) (by omega)
    · simp only [List.mem_cons, List.not_mem_nil, or_false] at hb
      rcases hb with rfl | rfl | rfl | rfl <;> exact hhigh _ (by omega) (by omega)

theorem toNat_toUInt8 {c : Char} (h : c.toNat < 128) : c.toUInt8.toNat = c.toNat :=
  UInt8.toNat_ofNat_of_lt' (Nat.lt_trans h (by decide))

/-- A byte of a character is that of one below U+0080 only if that is the character. -/
theorem eq_toUInt8_iff {c x : Char} (hx : x.toNat < 128) {b : UInt8}
    (hb : b ∈ String.utf8EncodeChar c) : b = x.toUInt8 ↔ c = x := by
  by_cases hc : c.toNat < 128
  · rw [utf8EncodeChar_of_lt hc, List.mem_singleton] at hb
    rw [hb, ← UInt8.toNat_inj, toNat_toUInt8 hc, toNat_toUInt8 hx]
    exact Char.toNat_inj
  · have hhigh := le_of_mem_utf8EncodeChar (Nat.not_lt.1 hc) hb
    constructor
    · rintro rfl
      rw [toNat_toUInt8 hx] at hhigh
      exact absurd hx (Nat.not_lt.2 hhigh)
    · rintro rfl
      exact absurd hx hc

/-! ## Boundaries -/

/-- A text is parted at each end of a beginning of it. -/
theorem splitAt?_byteSize (before after : List Char) :
    splitAt? (byteSize before) (before ++ after) = some (before, after) := by
  induction before with
  | nil => cases after <;> rfl
  | cons c before ih =>
    obtain ⟨n, hn⟩ := Nat.exists_eq_succ_of_ne_zero (utf8Size_ne_zero c)
    have hsize : byteSize (c :: before) = n + byteSize before + 1 := by
      rw [byteSize_cons, hn]
      omega
    have hrest : n + byteSize before + 1 - c.utf8Size = byteSize before := by omega
    rw [hsize, List.cons_append, splitAt?, if_pos (by omega), hrest, ih, Option.map_some]

/-- It is parted nowhere else. -/
theorem splitAt?_eq_some {n : Nat} {cs before after : List Char} :
    splitAt? n cs = some (before, after) ↔ cs = before ++ after ∧ byteSize before = n := by
  constructor
  · intro h
    induction cs generalizing n before with
    | nil =>
      cases n with
      | zero =>
        cases h
        exact ⟨rfl, rfl⟩
      | succ n => cases h
    | cons c cs ih =>
      cases n with
      | zero =>
        cases h
        exact ⟨rfl, rfl⟩
      | succ n =>
        rw [splitAt?] at h
        split at h
        · obtain ⟨parts, hparts, heq⟩ := Option.map_eq_some_iff.1 h
          cases heq
          obtain ⟨hcs, hsize⟩ := ih hparts
          refine ⟨by rw [List.cons_append, ← hcs], ?_⟩
          rw [byteSize_cons, hsize]
          omega
        · cases h
  · rintro ⟨rfl, rfl⟩
    exact splitAt?_byteSize before after

theorem isBoundary_iff {cs : List Char} {n : Nat} : IsBoundary cs n ↔ (splitAt? n cs).isSome = true := by
  rw [Option.isSome_iff_exists]
  constructor
  · rintro ⟨before, after, hcs, hn⟩
    exact ⟨(before, after), splitAt?_eq_some.2 ⟨hcs, hn⟩⟩
  · rintro ⟨parts, hparts⟩
    exact ⟨parts.1, parts.2, splitAt?_eq_some.1 hparts⟩

instance (cs : List Char) (n : Nat) : Decidable (IsBoundary cs n) :=
  decidable_of_iff _ isBoundary_iff.symm

theorem IsBoundary.le {cs : List Char} {n : Nat} (h : IsBoundary cs n) : n ≤ byteSize cs := by
  obtain ⟨before, after, rfl, rfl⟩ := h
  rw [byteSize_append]
  exact Nat.le_add_right ..

/-- A part of a text ends at boundaries of the text. -/
theorem isBoundary_append (before after : List Char) :
    IsBoundary (before ++ after) (byteSize before) := ⟨before, after, rfl, rfl⟩

end Lockstep.Text
