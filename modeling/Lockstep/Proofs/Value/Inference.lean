import Mathlib.Data.List.Forall2
import Lockstep.Proofs.Numeral.Marks
import Lockstep.Proofs.Numeral.Shortest
import Lockstep.Proofs.Text.Span
import Lockstep.Value.Text

/- What a guessed kind keeps of a text.

   1. `Value.Keeps` says that a value has lost nothing of the text it was read from: it is that text, or
      the number that it spells, or a list with one number for each of its tokens, none of which
      stands for something that is no numeral.
   2. `Guessable` says which texts are guessed right. What is wrong with a guess is that a text in front of
      which an angle bracket stands is taken for markup, that a list is judged by its first token, and
      that it is judged by its commas but read by another separator.
   3. A text of a guessed kind is kept if and only if it is guessable (`keeps_ofBody_infer_iff`). A number on
      its own is judged as a whole, and so is always kept. -/
namespace Lockstep
open Text Numeral

/-- What stands between the commas of a text, without the blanks around it. -/
def tokens (text : String) : List (List Char) :=
  ((stripBy isBlank text.toList).splitOn defaultSeparator).map (stripBy isBlank)

/-- A list of numbers that a text spells, and reads without filling in for anything. -/
def KeepsList {α : Type} (number? : List Char → Option α) (sep : Char) (text : String)
    (ns : List α) : Prop :=
  List.Forall₂ (fun token n => number? token = some n) (tokens text) ns ∧
    ∀ element ∈ plainElements sep (stripBy isBlank text.toList),
      (number? (stripBy isBlank element)).isSome

/-- A value that is all of the text it was read from, with the separator it was read by. -/
def Value.Keeps (sep : Char) (text : String) : Value → Prop
  | .datum (.text s) => s = text
  | .datum (.int n) => int32? (stripBy isBlank text.toList) = some n
  | .datum (.float x) => Binary32.ofChars? (stripBy isBlank text.toList) = some x
  | .datum (.ints ns) => KeepsList int32? sep text ns
  | .datum (.floats xs) => KeepsList Binary32.ofChars? sep text xs
  | _ => False

/-- More than one token, of which the first passes a test. -/
def leadsWith (p : List Char → Bool) : List (List Char) → Bool
  | first :: _ :: _ => p first
  | _ => false

/-- A text whose kind is guessed right, when it is read with a separator. -/
structure Guessable (sep : Char) (text : String) : Prop where
  unmarked : (stripBy isBlank text.toList).head? ≠ some '<'
  ints : leadsWith isInt (tokens text) = true →
    sep = defaultSeparator ∧ ∀ token ∈ tokens text, isInt token = true
  floats : leadsWith isInt (tokens text) = false → leadsWith isFloat (tokens text) = true →
    sep = defaultSeparator ∧ ∀ token ∈ tokens text, (Binary32.ofChars? token).isSome = true

instance (sep : Char) (text : String) : Decidable (Guessable sep text) :=
  decidable_of_iff
    ((stripBy isBlank text.toList).head? ≠ some '<' ∧
      (leadsWith isInt (tokens text) = true →
        sep = defaultSeparator ∧ ∀ token ∈ tokens text, isInt token = true) ∧
      (leadsWith isInt (tokens text) = false → leadsWith isFloat (tokens text) = true →
        sep = defaultSeparator ∧ ∀ token ∈ tokens text, (Binary32.ofChars? token).isSome = true))
    ⟨fun h => ⟨h.1, h.2.1, h.2.2⟩, fun h => ⟨h.unmarked, h.ints, h.floats⟩⟩

/-! ## Numerals -/

theorem isMarks_of_isInt {cs : List Char} (h : isInt cs = true) : IsMarks cs := isMarks_of_int32? h

theorem isMarks_of_isFloat {cs : List Char} (h : isFloat cs = true) : IsMarks cs := by
  rw [isFloat, Bool.and_eq_true] at h
  exact isMarks_of_decimal h.2

/-- A numeral holds no comma. -/
theorem comma_not_mem {cs : List Char} (h : IsMarks cs) : defaultSeparator ∉ cs := fun hmem =>
  absurd (h _ hmem) (by decide)

theorem head?_ne_of_isMarks {cs : List Char} (h : IsMarks cs) : cs.head? ≠ some '<' := fun hhead =>
  absurd (h _ (List.mem_of_mem_head? hhead)) (by decide)

theorem isBlank_comma : isBlank defaultSeparator = false := by decide

/-! ## Tokens -/

/-- What is not in the class is not cut off. -/
theorem mem_stripBy {p : Char → Bool} {c : Char} {cs : List Char} (h : c ∈ cs) (hc : p c = false) :
    c ∈ stripBy p cs := by
  obtain ⟨before, after, hsplit, hbefore, hafter, -, -⟩ := exists_stripBy p cs
  rw [hsplit, List.mem_append, List.mem_append] at h
  rcases h with (h | h) | h
  · exact absurd (hbefore c h) (by rw [hc]; exact Bool.false_ne_true)
  · exact h
  · exact absurd (hafter c h) (by rw [hc]; exact Bool.false_ne_true)

/-- What is joined by a separator is in one of the parts, if it is not the separator. -/
theorem exists_mem_of_mem_intercalate {sep c : Char} (hne : c ≠ sep) {es : List (List Char)}
    (h : c ∈ [sep].intercalate es) : ∃ e ∈ es, c ∈ e := by
  induction es with
  | nil => exact absurd h List.not_mem_nil
  | cons e es ih =>
    cases es with
    | nil => exact ⟨e, List.mem_cons_self, by rwa [List.intercalate_singleton] at h⟩
    | cons e' es =>
      rw [List.intercalate_cons_cons, List.mem_append, List.mem_append, List.mem_singleton] at h
      rcases h with (h | h) | h
      · exact ⟨e, List.mem_cons_self, h⟩
      · exact absurd h hne
      · obtain ⟨found, hfound, hmem⟩ := ih h
        exact ⟨found, List.mem_cons_of_mem e hfound, hmem⟩

section
variable {text : String}

theorem tokens_of_not_mem (h : defaultSeparator ∉ stripBy isBlank text.toList) :
    tokens text = [stripBy isBlank text.toList] := by
  rw [tokens, List.splitOn_eq_singleton h, List.map_singleton, stripBy_stripBy]

/-- The token in front of the first comma leads. -/
theorem leadsWith_tokens {first after : List Char} (p : List Char → Bool)
    (h : cutFirst? defaultSeparator (stripBy isBlank text.toList) = some (first, after)) :
    leadsWith p (tokens text) = p (stripBy isBlank first) := by
  have hcut : defaultSeparator ∉ first := by
    unfold cutFirst? at h
    split at h
    · cases h
    · cases h
      intro hmem
      have hne := List.mem_takeWhile_imp hmem
      exact of_decide_eq_true hne rfl
  rw [tokens, cutFirst?_eq_some h, List.splitOn_append_cons_self_of_not_mem hcut, List.map_cons]
  cases hrest : (after.splitOn defaultSeparator).map (stripBy isBlank) with
  | nil => exact absurd (List.map_eq_nil_iff.1 hrest) (List.splitOn_ne_nil defaultSeparator after)
  | cons _ _ => rfl

theorem comma_mem_of_cutFirst? {first after : List Char}
    (h : cutFirst? defaultSeparator (stripBy isBlank text.toList) = some (first, after)) :
    defaultSeparator ∈ stripBy isBlank text.toList := by
  rw [cutFirst?_eq_some h]
  exact List.mem_append_right first List.mem_cons_self

theorem comma_not_mem_of_cutFirst? {cs : List Char} (h : cutFirst? defaultSeparator cs = none) :
    defaultSeparator ∉ cs := by
  intro hmem
  unfold cutFirst? at h
  split at h
  · rename_i hnil
    have hall := List.dropWhile_eq_nil_iff.1 hnil defaultSeparator hmem
    exact absurd rfl (of_decide_eq_true hall)
  · cases h

/-- A text without a comma is no list, so only markup is guessed wrong. -/
theorem Guessable.of_not_mem (sep : Char) (h : defaultSeparator ∉ stripBy isBlank text.toList)
    (hhead : (stripBy isBlank text.toList).head? ≠ some '<') : Guessable sep text where
  unmarked := hhead
  ints hleads := by
    rw [tokens_of_not_mem h] at hleads
    cases hleads
  floats _ hleads := by
    rw [tokens_of_not_mem h] at hleads
    cases hleads

/-! ## Lists -/

section
variable {α : Type} {number? : List Char → Option α} {sep : Char}

/-- A body with a comma in it is not blank. -/
theorem plainElements_of_comma (h : defaultSeparator ∈ stripBy isBlank text.toList) :
    plainElements sep (stripBy isBlank text.toList) = (stripBy isBlank text.toList).splitOn sep := by
  rw [plainElements, if_neg]
  intro hall
  exact absurd (List.all_eq_true.1 hall _ h) (by decide)

/-- A text with commas is read without filling in for anything only by its commas: with any other
    separator, some element holds one. -/
theorem sep_eq_comma (hnumber : ∀ {cs}, (number? cs).isSome → IsMarks cs)
    (h : defaultSeparator ∈ stripBy isBlank text.toList)
    (hall : ∀ element ∈ plainElements sep (stripBy isBlank text.toList),
      (number? (stripBy isBlank element)).isSome) : sep = defaultSeparator := by
  by_contra hne
  rw [plainElements_of_comma h] at hall
  have hjoined := h
  have hback : List.intercalate [sep] (List.splitOn sep (stripBy isBlank text.toList)) = _ :=
    List.intercalate_splitOn sep
  rw [← hback] at hjoined
  obtain ⟨element, helement, hmem⟩ := exists_mem_of_mem_intercalate (Ne.symm hne) hjoined
  have hmarks := hnumber (hall element helement)
  exact comma_not_mem hmarks (mem_stripBy hmem isBlank_comma)

theorem forall_tokens_iff (h : defaultSeparator ∈ stripBy isBlank text.toList) :
    (∀ element ∈ plainElements defaultSeparator (stripBy isBlank text.toList),
      (number? (stripBy isBlank element)).isSome) ↔ ∀ token ∈ tokens text, (number? token).isSome := by
  rw [plainElements_of_comma h, tokens, List.forall_mem_map]

/-- A list that was guessed by its commas is kept if and only if it is read by them, too, and each of its
    tokens is a numeral. -/
theorem keepsList_iff (hnumber : ∀ {cs}, (number? cs).isSome → IsMarks cs)
    (h : defaultSeparator ∈ stripBy isBlank text.toList) (filler : α) :
    KeepsList number? sep text ((plainElements sep (stripBy isBlank text.toList)).map fun element =>
        (number? (stripBy isBlank element)).getD filler) ↔
      sep = defaultSeparator ∧ ∀ token ∈ tokens text, (number? token).isSome := by
  constructor
  · rintro ⟨-, hall⟩
    obtain rfl := sep_eq_comma hnumber h hall
    exact ⟨rfl, (forall_tokens_iff h).1 hall⟩
  · rintro ⟨rfl, hall⟩
    refine ⟨?_, (forall_tokens_iff h).2 hall⟩
    rw [tokens] at hall
    rw [plainElements_of_comma h, tokens, List.forall₂_map_left_iff, List.forall₂_map_right_iff,
      List.forall₂_same]
    intro element helement
    obtain ⟨n, hn⟩ := Option.isSome_iff_exists.1 (List.forall_mem_map.1 hall element helement)
    rw [hn, Option.getD_some]

end

/-! ## Guessed kinds -/

/-- What is read of a body whose blanks do not count. -/
theorem ofBody_trimmed {kind : Kind} (h : kind.keepsBlanks = false) (text : String) (sep : Char) :
    Value.ofBody kind text sep = Value.ofChars kind sep (stripBy isBlank text.toList) := by
  rw [Value.ofBody, h, Value.ofText, trim, if_neg Bool.false_ne_true, String.toList_ofList]

/-- A number on its own is judged as a whole. -/
theorem keeps_int (h : isInt (stripBy isBlank text.toList) = true) (sep : Char) :
    (Value.ofBody .int text sep).Keeps sep text := by
  obtain ⟨n, hn⟩ := Option.isSome_iff_exists.1 h
  rw [ofBody_trimmed rfl]
  show int32? (stripBy isBlank text.toList) = some (intOrZero (stripBy isBlank text.toList))
  rw [intOrZero, stripBy_stripBy, hn, Option.getD_some]

theorem keeps_float (h : isFloat (stripBy isBlank text.toList) = true) (sep : Char) :
    (Value.ofBody .float text sep).Keeps sep text := by
  rw [isFloat, Bool.and_eq_true] at h
  obtain ⟨d, hd⟩ := Option.isSome_iff_exists.1 h.2
  rw [ofBody_trimmed rfl]
  show Binary32.ofChars? (stripBy isBlank text.toList) =
    some (floatOrZero (stripBy isBlank text.toList))
  rw [floatOrZero, stripBy_stripBy, Binary32.ofChars?, hd, Option.map_some, Option.getD_some]

theorem keeps_text (text : String) (sep : Char) : (Value.ofBody .text text sep).Keeps sep text :=
  String.ofList_toList

theorem keeps_ints_iff (h : defaultSeparator ∈ stripBy isBlank text.toList) (sep : Char) :
    (Value.ofBody .ints text sep).Keeps sep text ↔
      sep = defaultSeparator ∧ ∀ token ∈ tokens text, isInt token = true := by
  rw [ofBody_trimmed rfl]
  exact keepsList_iff isMarks_of_int32? h 0

theorem keeps_floats_iff (h : defaultSeparator ∈ stripBy isBlank text.toList) (sep : Char) :
    (Value.ofBody .floats text sep).Keeps sep text ↔
      sep = defaultSeparator ∧ ∀ token ∈ tokens text, (Binary32.ofChars? token).isSome = true := by
  rw [ofBody_trimmed rfl]
  exact keepsList_iff isMarks_of_binary32 h .zero

/-- With a comma in it, a text that is no markup is guessable if its first token leads to nothing that the
    others are not. -/
theorem guessable_iff_of_cut {first after : List Char} (sep : Char)
    (hhead : (stripBy isBlank text.toList).head? ≠ some '<')
    (hcut : cutFirst? defaultSeparator (stripBy isBlank text.toList) = some (first, after)) :
    Guessable sep text ↔
      (isInt (stripBy isBlank first) = true →
        sep = defaultSeparator ∧ ∀ token ∈ tokens text, isInt token = true) ∧
      (isInt (stripBy isBlank first) = false → isFloat (stripBy isBlank first) = true →
        sep = defaultSeparator ∧ ∀ token ∈ tokens text, (Binary32.ofChars? token).isSome = true) := by
  rw [← leadsWith_tokens isInt hcut, ← leadsWith_tokens isFloat hcut]
  exact ⟨fun h => ⟨h.ints, h.floats⟩, fun h => ⟨hhead, h.1, h.2⟩⟩

/-- A text of a guessed kind is kept if and only if it is guessed right. -/
theorem keeps_ofBody_infer_iff (sep : Char) (text : String) :
    (Value.ofBody (Kind.infer text) text sep).Keeps sep text ↔ Guessable sep text := by
  -- A numeral is neither markup nor a list.
  have hnumeral : IsMarks (stripBy isBlank text.toList) → Guessable sep text := fun hmarks =>
    .of_not_mem sep (comma_not_mem hmarks) (head?_ne_of_isMarks hmarks)
  fun_cases Kind.infer text with
  | case1 cs hint => exact iff_of_true (keeps_int hint sep) (hnumeral (isMarks_of_isInt hint))
  | case2 cs _ hfloat => exact iff_of_true (keeps_float hfloat sep) (hnumeral (isMarks_of_isFloat hfloat))
  | case3 cs _ _ hhead => exact iff_of_false id fun hguess => hguess.unmarked hhead
  | case4 cs _ _ hhead first after hcut token hfirst =>
    rw [keeps_ints_iff (comma_mem_of_cutFirst? hcut), guessable_iff_of_cut sep hhead hcut]
    simp [token, hfirst]
  | case5 cs _ _ hhead first after hcut token hint hfirst =>
    rw [keeps_floats_iff (comma_mem_of_cutFirst? hcut), guessable_iff_of_cut sep hhead hcut]
    simp [token, hint, hfirst]
  | case6 cs _ _ hhead first after hcut token hint hfirst =>
    rw [guessable_iff_of_cut sep hhead hcut]
    exact iff_of_true (keeps_text text sep) ⟨fun h => absurd h hint, fun _ h => absurd h hfirst⟩
  | case7 cs _ _ hhead hcut =>
    exact iff_of_true (keeps_text text sep) (.of_not_mem sep (comma_not_mem_of_cutFirst? hcut) hhead)

end
end Lockstep
