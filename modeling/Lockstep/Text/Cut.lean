/- Where a text is cut: at one character, or at a pattern.

   1. `cutFirst?` and `cutLast?` part a text at the first or last occurrence of a character, which
      belongs to neither part.
   2. `dropPattern?` takes a pattern off the front, `cutPattern?` finds its first occurrence;
      `cutPattern?_eq_some` says that nothing is lost between the two parts.
   3. `byteSize` is the length of a text in UTF-8, the unit of every offset in this library;
      `takeBytes` and `dropBytes` cut a text at such an offset. -/
namespace Lockstep.Text

/-- The parts before and after the first `sep`. -/
def cutFirst? (sep : Char) (cs : List Char) : Option (List Char × List Char) :=
  match cs.dropWhile (· ≠ sep) with
  | [] => none
  | _ :: after => some (cs.takeWhile (· ≠ sep), after)

/-- The parts before and after the last `sep`. -/
def cutLast? (sep : Char) (cs : List Char) : Option (List Char × List Char) :=
  (cutFirst? sep cs.reverse).map fun parts => (parts.2.reverse, parts.1.reverse)

/-- What follows `pattern` at the front of a text. -/
def dropPattern? : List Char → List Char → Option (List Char)
  | [], cs => some cs
  | _ :: _, [] => none
  | p :: ps, c :: cs => if p = c then dropPattern? ps cs else none

/-- The parts before and after the first occurrence of `pattern`. -/
def cutPattern? (pattern : List Char) : List Char → Option (List Char × List Char)
  | [] => (dropPattern? pattern []).map ([], ·)
  | c :: cs =>
    match dropPattern? pattern (c :: cs) with
    | some after => some ([], after)
    | none => (cutPattern? pattern cs).map fun parts => (c :: parts.1, parts.2)

/-- The number of bytes of a text in UTF-8. -/
def byteSize (cs : List Char) : Nat := cs.foldr (fun c n => c.utf8Size + n) 0

/-- The characters of the first `n` bytes. -/
def takeBytes : Nat → List Char → List Char
  | _, [] => []
  | n, c :: cs => if n = 0 then [] else c :: takeBytes (n - c.utf8Size) cs

/-- What follows the first `n` bytes. -/
def dropBytes : Nat → List Char → List Char
  | _, [] => []
  | n, c :: cs => if n = 0 then c :: cs else dropBytes (n - c.utf8Size) cs

/-! ## Nothing is lost -/

theorem dropPattern?_eq_some {pattern cs after : List Char} :
    dropPattern? pattern cs = some after ↔ cs = pattern ++ after := by
  induction pattern generalizing cs with
  | nil => simp [dropPattern?]
  | cons p ps ih =>
    cases cs with
    | nil => simp [dropPattern?]
    | cons c cs =>
      by_cases h : p = c
      · simp [dropPattern?, h, ih]
      · simp [dropPattern?, h, Ne.symm h]

theorem cutPattern?_eq_some {pattern cs before after : List Char}
    (h : cutPattern? pattern cs = some (before, after)) : cs = before ++ pattern ++ after := by
  induction cs generalizing before with
  | nil =>
    obtain ⟨a, ha, hb⟩ := Option.map_eq_some_iff.1 h
    cases hb
    simpa using dropPattern?_eq_some.1 ha
  | cons c cs ih =>
    simp only [cutPattern?] at h
    split at h
    · rename_i a ha
      cases h
      simpa using dropPattern?_eq_some.1 ha
    · obtain ⟨parts, hp, hb⟩ := Option.map_eq_some_iff.1 h
      cases hb
      simp [ih hp]

theorem cutFirst?_eq_some {sep : Char} {cs before after : List Char}
    (h : cutFirst? sep cs = some (before, after)) : cs = before ++ sep :: after := by
  unfold cutFirst? at h
  split at h
  · cases h
  · rename_i c rest hd
    cases h
    have hs := List.takeWhile_append_dropWhile (p := (· ≠ sep)) (l := cs)
    have hc : c = sep := by
      have := List.head?_dropWhile_not (· ≠ sep) cs
      rw [hd] at this
      simpa using this
    rw [hd, hc] at hs
    exact hs.symm

@[simp] theorem byteSize_nil : byteSize [] = 0 := rfl

@[simp] theorem byteSize_cons (c : Char) (cs : List Char) :
    byteSize (c :: cs) = c.utf8Size + byteSize cs := rfl

@[simp] theorem byteSize_append (a b : List Char) :
    byteSize (a ++ b) = byteSize a + byteSize b := by
  induction a with
  | nil => simp
  | cons c a ih => simp [ih, Nat.add_assoc]

theorem utf8Size_ne_zero (c : Char) : c.utf8Size ≠ 0 := Nat.ne_of_gt c.utf8Size_pos

/-- Bytes that end with a character are cut there. -/
theorem dropBytes_byteSize_append (a b : List Char) : dropBytes (byteSize a) (a ++ b) = b := by
  induction a with
  | nil => cases b <;> simp [dropBytes]
  | cons c cs ih => simp [dropBytes, utf8Size_ne_zero, ih]

/-- Bytes that end with a character are taken up to there. -/
theorem takeBytes_byteSize_append (a b : List Char) : takeBytes (byteSize a) (a ++ b) = a := by
  induction a with
  | nil => cases b <;> simp [takeBytes]
  | cons c cs ih => simp [takeBytes, utf8Size_ne_zero, ih]

end Lockstep.Text
