import Lockstep.Bytes.Word

/- A byte string that may hold a single value.

   A blob reads as a word only when it is exactly as long as the word; of any other length it reads
   as zero. -/
namespace Lockstep

/-- A byte string. -/
structure Blob where
  bytes : List UInt8
deriving DecidableEq, Repr

namespace Blob
variable {α : Type}

/-- The blob that holds one word. -/
def ofWord (w : Word α) (x : α) : Blob := ⟨w.encode x⟩

/-- The word that a blob holds, or zero. -/
def toWord (w : Word α) (b : Blob) : α :=
  if b.bytes.length = w.size then w.decode b.bytes else w.ofNat 0

@[simp] theorem toWord_ofWord (w : Word α) (x : α) : (ofWord w x).toWord w = x := by
  simp [toWord, ofWord]

/-- A blob of another length reads as zero. -/
theorem toWord_of_length_ne {w : Word α} {b : Blob} (h : b.bytes.length ≠ w.size) :
    b.toWord w = w.ofNat 0 := by
  simp [toWord, h]

end Blob
end Lockstep
