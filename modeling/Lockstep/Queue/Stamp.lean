import Lockstep.Numeral.Integer
import Lockstep.Text.Blank
import Lockstep.Text.Cut

/- Stamps: the keys of queued events.

   A stamp is a microsecond and a sequence number that tells events of one microsecond apart. Stamps
   are ordered by the microsecond first. The text is the two numbers with a hyphen between them, the
   second with at least three digits. -/
namespace Lockstep

structure Stamp where
  micros : UInt64
  seq : UInt32
deriving DecidableEq, Repr

namespace Stamp

/-- The order of stamps: by microsecond, then by sequence number. -/
def before (a b : Stamp) : Prop := a.micros < b.micros ∨ a.micros = b.micros ∧ a.seq < b.seq

instance : LT Stamp := ⟨before⟩

instance (a b : Stamp) : Decidable (a < b) := inferInstanceAs (Decidable (_ ∨ _))

theorem lt_def {a b : Stamp} :
    a < b ↔ a.micros < b.micros ∨ a.micros = b.micros ∧ a.seq < b.seq := Iff.rfl

theorem lt_irrefl (a : Stamp) : ¬ a < a := by
  simp [lt_def]

theorem lt_trans {a b c : Stamp} (h : a < b) (h' : b < c) : a < c := by
  simp only [lt_def, UInt64.lt_iff_toNat_lt, UInt32.lt_iff_toNat_lt, ← UInt64.toNat_inj] at *
  omega

theorem lt_of_not_lt {a b : Stamp} (h : ¬ a < b) (hne : a ≠ b) : b < a := by
  obtain ⟨am, as⟩ := a
  obtain ⟨bm, bs⟩ := b
  simp only [lt_def, UInt64.lt_iff_toNat_lt, UInt32.lt_iff_toNat_lt, ne_eq, mk.injEq,
    ← UInt64.toNat_inj, ← UInt32.toNat_inj] at *
  omega

/-- The next stamp of the same microsecond; the last sequence number has none. -/
def next? (s : Stamp) : Option Stamp :=
  if s.seq.toNat + 1 < 2 ^ 32 then some { s with seq := s.seq + 1 } else none

theorem lt_of_next?_eq_some {s t : Stamp} (h : s.next? = some t) : s < t := by
  unfold next? at h
  split at h
  · rename_i hlt
    cases h
    refine Or.inr ⟨rfl, ?_⟩
    simp only [UInt32.lt_iff_toNat_lt, UInt32.toNat_add]
    simp only [UInt32.toNat_one]
    omega
  · cases h

theorem micros_of_next?_eq_some {s t : Stamp} (h : s.next? = some t) : t.micros = s.micros := by
  unfold next? at h
  split at h <;> cases h
  rfl

theorem seq_of_next?_eq_some {s t : Stamp} (h : s.next? = some t) :
    t.seq.toNat = s.seq.toNat + 1 := by
  unfold next? at h
  split at h
  · rename_i hlt
    cases h
    simp only [UInt32.toNat_add, UInt32.toNat_one]
    omega
  · cases h

/-- The text of a stamp. -/
def chars (s : Stamp) : List Char :=
  Numeral.naturalChars s.micros.toNat ++ '-' :: Numeral.padded 3 s.seq.toNat

def text (s : Stamp) : String := String.ofList s.chars

/-- The stamp that a text spells, blanks around it aside; the last hyphen parts the numbers. -/
def ofText? (text : String) : Option Stamp :=
  match Text.cutLast? '-' (Text.stripBy Text.isBlank text.toList) with
  | none => none
  | some (micros, seq) =>
    match Numeral.natural? (2 ^ 64) micros, Numeral.natural? (2 ^ 32) seq with
    | some m, some n => some ⟨UInt64.ofNat m, UInt32.ofNat n⟩
    | _, _ => none

end Stamp
end Lockstep
