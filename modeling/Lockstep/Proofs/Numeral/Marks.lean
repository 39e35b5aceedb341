import Mathlib.Data.List.TakeWhile
import Lockstep.Numeral.Binary32

/- The characters of the numerals that are read.

   What is written for a number holds few characters (`Binary32.IsNumeral`); what is read as one may
   hold more: a plus sign, and words and exponents in either case. `isMark` are all of them, so no
   numeral holds a comma, an angle bracket, or any other character that is no mark. -/
namespace Lockstep.Numeral

/-- The characters that numerals are read from. -/
def isMark (c : Char) : Bool :=
  c.isDigit || ['+', '-', '.'].contains c || ['a', 'e', 'f', 'i', 'n', 't', 'y'].contains c.toLower

/-- A text of marks. -/
def IsMarks (cs : List Char) : Prop := ∀ c ∈ cs, isMark c = true

theorem isMark_of_isDigit {c : Char} (h : c.isDigit = true) : isMark c = true := by
  rw [isMark, h, Bool.true_or, Bool.true_or]

theorem isMark_of_toLower {c : Char} (h : c.toLower ∈ ['a', 'e', 'f', 'i', 'n', 't', 'y']) :
    isMark c = true := by
  rw [isMark, List.contains_iff_mem.2 h, Bool.or_true]

theorem isMarks_nil : IsMarks [] := List.forall_mem_nil _

theorem isMarks_cons {c : Char} {cs : List Char} (hc : isMark c = true) (h : IsMarks cs) :
    IsMarks (c :: cs) := List.forall_mem_cons.2 ⟨hc, h⟩

theorem isMarks_append {a b : List Char} (ha : IsMarks a) (hb : IsMarks b) : IsMarks (a ++ b) :=
  List.forall_mem_append.2 ⟨ha, hb⟩

variable {cs : List Char}

/-! ## Integers -/

theorem isMarks_of_digits? (h : (digits? cs).isSome) : IsMarks cs := by
  intro c hc
  unfold digits? at h
  split at h
  · rename_i hall
    exact isMark_of_isDigit (List.all_eq_true.1 hall.2 c hc)
  · cases h

/-- What passes a test is some digits. -/
theorem isMarks_of_filter {p : Nat → Bool} (h : ((digits? cs).filter p).isSome) : IsMarks cs := by
  obtain ⟨n, hn⟩ := Option.isSome_iff_exists.1 h
  apply isMarks_of_digits?
  rw [(Option.filter_eq_some_iff.1 hn).1]
  rfl

theorem isMarks_of_natural? {limit : Nat} (h : (natural? limit cs).isSome) : IsMarks cs := by
  unfold natural? at h
  split at h
  · exact isMarks_cons rfl (isMarks_of_filter h)
  · exact isMarks_of_filter h

theorem isMarks_of_int32? (h : (int32? cs).isSome) : IsMarks cs := by
  unfold int32? at h
  split at h
  · rename_i body
    apply isMarks_cons rfl
    apply isMarks_of_filter (p := (· ≤ 2 ^ 31))
    simpa [Option.isSome_bind] using h
  · have hnatural : (natural? (2 ^ 31) cs).isSome := by simpa [Option.isSome_bind] using h
    exact isMarks_of_natural? hnatural

/-! ## Decimals -/

theorem isMarks_of_exponent? (h : (Decimal.exponent? cs).isSome) : IsMarks cs := by
  cases cs with
  | nil => exact isMarks_nil
  | cons mark body =>
    simp only [Decimal.exponent?] at h
    split at h
    · rename_i hmark
      have hfirst : isMark mark = true := by
        rcases hmark with rfl | rfl <;> rfl
      apply isMarks_cons hfirst
      split at h
      · apply isMarks_cons rfl
        apply isMarks_of_digits?
        simpa [Option.isSome_bind] using h
      · apply isMarks_cons rfl
        apply isMarks_of_digits?
        simpa [Option.isSome_bind] using h
      · apply isMarks_of_digits?
        simpa [Option.isSome_bind] using h
    · cases h

/-- The parts of a numeral are made of marks if what follows its digits is. -/
theorem isMarks_of_parts (h : IsMarks (Decimal.parts cs).2.2) : IsMarks cs := by
  have hwhole : IsMarks (cs.takeWhile Char.isDigit) := fun c hc =>
    isMark_of_isDigit (List.mem_takeWhile_imp hc)
  have hrest : IsMarks (cs.dropWhile Char.isDigit) := by
    unfold Decimal.parts at h
    dsimp only at h
    split at h
    · rename_i body heq
      have hfraction : IsMarks (body.takeWhile Char.isDigit) := fun c hc =>
        isMark_of_isDigit (List.mem_takeWhile_imp hc)
      rw [heq]
      apply isMarks_cons rfl
      rw [← List.takeWhile_append_dropWhile (p := Char.isDigit) (l := body)]
      exact isMarks_append hfraction h
    · exact h
  rw [← List.takeWhile_append_dropWhile (p := Char.isDigit) (l := cs)]
  exact isMarks_append hwhole hrest

theorem isMarks_of_ofDigits? {negative : Bool} (h : (Decimal.ofDigits? negative cs).isSome) :
    IsMarks cs := by
  apply isMarks_of_parts
  apply isMarks_of_exponent?
  unfold Decimal.ofDigits? at h
  dsimp only at h
  split at h
  · cases h
  · rwa [Option.isSome_map] at h

/-- A word in either case is made of its letters. -/
theorem isMarks_of_word {word : List Char} (h : cs.map Char.toLower = word)
    (hword : ∀ c ∈ word, c ∈ ['a', 'e', 'f', 'i', 'n', 't', 'y']) : IsMarks cs := by
  intro c hc
  apply isMark_of_toLower
  apply hword
  rw [← h]
  exact List.mem_map_of_mem hc

theorem isMarks_of_ofUnsigned? {negative : Bool} (h : (Decimal.ofUnsigned? negative cs).isSome) :
    IsMarks cs := by
  unfold Decimal.ofUnsigned? at h
  dsimp only at h
  split at h
  · rename_i hword
    rcases hword with hword | hword
    · exact isMarks_of_word hword (by simp)
    · exact isMarks_of_word hword (by simp)
  · split at h
    · rename_i hword
      exact isMarks_of_word hword (by simp)
    · exact isMarks_of_ofDigits? h

theorem isMarks_of_decimal (h : (Decimal.ofChars? cs).isSome) : IsMarks cs := by
  unfold Decimal.ofChars? at h
  split at h
  · exact isMarks_cons rfl (isMarks_of_ofUnsigned? h)
  · exact isMarks_cons rfl (isMarks_of_ofUnsigned? h)
  · exact isMarks_of_ofUnsigned? h

theorem isMarks_of_binary32 (h : (Binary32.ofChars? cs).isSome) : IsMarks cs := by
  rw [Binary32.ofChars?, Option.isSome_map] at h
  exact isMarks_of_decimal h

end Lockstep.Numeral
