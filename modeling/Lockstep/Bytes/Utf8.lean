/- Text as bytes.

   `utf8` lists the bytes of a text and `ofUtf8?` reads them; bytes that are the encoding of no
   text have no reading. `ofUtf8?_utf8` says that every text comes back. -/
namespace Lockstep

/-- The bytes of a text in UTF-8. -/
def utf8 (s : String) : List UInt8 := s.toByteArray.data.toList

/-- The text whose UTF-8 bytes are given. -/
def ofUtf8? (bytes : List UInt8) : Option String := String.fromUTF8? ⟨bytes.toArray⟩

@[simp] theorem length_utf8 (s : String) : (utf8 s).length = s.utf8ByteSize := rfl

@[simp] theorem ofUtf8?_utf8 (s : String) : ofUtf8? (utf8 s) = some s := by
  have h : (⟨(utf8 s).toArray⟩ : ByteArray) = s.toByteArray := by simp [utf8]
  rw [ofUtf8?, h]
  simp only [String.fromUTF8?, s.isValidUTF8, dite_true]
  rfl

end Lockstep
