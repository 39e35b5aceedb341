import Lockstep.Text.Blank
import Lockstep.Text.Cut

/- Texts parted by classes of characters.

   1. `StopsBy p cs` says that `cs` does not go on with a character of `p`; in front of such a text,
      a run of characters of `p` is what `takeWhile` takes and `dropWhile` drops.
   2. A text that stops at both ends is what `stripBy` leaves of it, and of it with characters of the class around it
      (`stripBy_append`); every text is so made up (`exists_stripBy`).
   3. `cutFirst?` and `cutLast?` find the one separator that is alone on its side, `cutPattern?` the
      pattern at the front, and a pattern of one character behind others. -/
namespace Lockstep.Text

/-- A text whose first character, if there is one, is not in the class. -/
def StopsBy (p : Char → Bool) (cs : List Char) : Prop := ∀ x ∈ cs.head?, p x = false

@[simp] theorem stopsBy_nil (p : Char → Bool) : StopsBy p [] := by simp [StopsBy]

@[simp] theorem stopsBy_cons (p : Char → Bool) (c : Char) (cs : List Char) :
    StopsBy p (c :: cs) ↔ p c = false := by simp [StopsBy]

theorem stopsBy_append {p : Char → Bool} {a : List Char} (hne : a ≠ []) (h : StopsBy p a)
    (b : List Char) : StopsBy p (a ++ b) := by
  cases a with
  | nil => exact absurd rfl hne
  | cons c cs => exact h

theorem stopsBy_dropWhile (p : Char → Bool) (cs : List Char) : StopsBy p (cs.dropWhile p) := by
  intro x hx
  have h := List.head?_dropWhile_not p cs
  rw [Option.mem_def] at hx
  rw [hx] at h
  simpa using h

theorem takeWhile_append_of_stopsBy {p : Char → Bool} {u rest : List Char}
    (hu : ∀ x ∈ u, p x = true) (hr : StopsBy p rest) : (u ++ rest).takeWhile p = u := by
  rw [List.takeWhile_append_of_pos hu]
  cases rest with
  | nil => simp
  | cons c cs => simp [(stopsBy_cons p c cs).1 hr]

theorem dropWhile_append_of_stopsBy {p : Char → Bool} {u rest : List Char}
    (hu : ∀ x ∈ u, p x = true) (hr : StopsBy p rest) : (u ++ rest).dropWhile p = rest := by
  rw [List.dropWhile_append_of_pos hu]
  cases rest with
  | nil => simp
  | cons c cs => simp [(stopsBy_cons p c cs).1 hr]

theorem dropWhile_eq_self {p : Char → Bool} {cs : List Char} (h : StopsBy p cs) :
    cs.dropWhile p = cs :=
  dropWhile_append_of_stopsBy (u := []) (by simp) h

/-! ## Cutting the ends -/

theorem stripEndBy_eq_self {p : Char → Bool} {cs : List Char} (h : StopsBy p cs.reverse) :
    stripEndBy p cs = cs := by
  rw [stripEndBy, dropWhile_eq_self h, List.reverse_reverse]

theorem stripBy_eq_self {p : Char → Bool} {cs : List Char} (h : StopsBy p cs)
    (h' : StopsBy p cs.reverse) : stripBy p cs = cs := by
  rw [stripBy, dropWhile_eq_self h, stripEndBy_eq_self h']

theorem stopsBy_of_forall {p : Char → Bool} {cs : List Char} (h : ∀ x ∈ cs, p x = false) :
    StopsBy p cs := fun x hx => h x (List.mem_of_mem_head? hx)

/-- Nothing is cut off a text without characters of the class. -/
theorem stripBy_of_forall {p : Char → Bool} {cs : List Char} (h : ∀ x ∈ cs, p x = false) :
    stripBy p cs = cs :=
  stripBy_eq_self (stopsBy_of_forall h)
    (stopsBy_of_forall fun x hx => h x (List.mem_reverse.1 hx))

theorem stripEndBy_append {p : Char → Bool} {cs after : List Char} (h : StopsBy p cs.reverse)
    (hafter : ∀ x ∈ after, p x = true) : stripEndBy p (cs ++ after) = cs := by
  rw [stripEndBy, List.reverse_append,
    dropWhile_append_of_stopsBy (fun x hx => hafter x (List.mem_reverse.1 hx)) h, List.reverse_reverse]

/-- What stands around a text that stops at both ends is cut off. -/
theorem stripBy_append {p : Char → Bool} {before cs after : List Char}
    (hbefore : ∀ x ∈ before, p x = true) (h : StopsBy p cs) (h' : StopsBy p cs.reverse)
    (hafter : ∀ x ∈ after, p x = true) : stripBy p (before ++ cs ++ after) = cs := by
  by_cases hne : cs = []
  · subst hne
    have hall : ∀ x ∈ before ++ after, p x = true := fun x hx =>
      (List.mem_append.1 hx).elim (hbefore x) (hafter x)
    rw [List.append_nil, ← List.append_nil (before ++ after), stripBy,
      dropWhile_append_of_stopsBy hall (stopsBy_nil p)]
    rfl
  · rw [stripBy, List.append_assoc, dropWhile_append_of_stopsBy hbefore (stopsBy_append hne h after),
      stripEndBy_append h' hafter]

/-- The end of a text is cut off from where the class begins for good. -/
theorem exists_stripEndBy (p : Char → Bool) (cs : List Char) : ∃ after,
    cs = stripEndBy p cs ++ after ∧ (∀ x ∈ after, p x = true) ∧ StopsBy p (stripEndBy p cs).reverse := by
  refine ⟨(cs.reverse.takeWhile p).reverse, ?_, fun x hx => ?_, ?_⟩
  · rw [stripEndBy, ← List.reverse_append, List.takeWhile_append_dropWhile, List.reverse_reverse]
  · exact List.all_eq_true.1 List.all_takeWhile x (List.mem_reverse.1 hx)
  · rw [stripEndBy, List.reverse_reverse]
    exact stopsBy_dropWhile p _

/-- What is cut off both ends of a text, and what is left of it. -/
theorem exists_stripBy (p : Char → Bool) (cs : List Char) : ∃ before after,
    cs = before ++ stripBy p cs ++ after ∧ (∀ x ∈ before, p x = true) ∧ (∀ x ∈ after, p x = true) ∧
      StopsBy p (stripBy p cs) ∧ StopsBy p (stripBy p cs).reverse := by
  obtain ⟨after, hsplit, hafter, hend⟩ := exists_stripEndBy p (cs.dropWhile p)
  have hfront : StopsBy p (stripBy p cs) := by
    by_cases hne : stripBy p cs = []
    · rw [hne]
      exact stopsBy_nil p
    · obtain ⟨c, rest, hcons⟩ := List.exists_cons_of_ne_nil hne
      have hdrop := stopsBy_dropWhile p cs
      rw [hsplit, ← stripBy, hcons, List.cons_append, stopsBy_cons] at hdrop
      rwa [hcons, stopsBy_cons]
  refine ⟨cs.takeWhile p, after, ?_, fun x hx => List.all_eq_true.1 List.all_takeWhile x hx, hafter, hfront, hend⟩
  rw [List.append_assoc]
  exact (List.takeWhile_append_dropWhile.symm.trans (congrArg (cs.takeWhile p ++ ·) hsplit))

theorem stripBy_stripBy (p : Char → Bool) (cs : List Char) : stripBy p (stripBy p cs) = stripBy p cs := by
  obtain ⟨before, after, -, -, -, hfront, hback⟩ := exists_stripBy p cs
  exact stripBy_eq_self hfront hback

/-! ## Cutting at a character -/

theorem cutFirst?_append {sep : Char} (before : List Char) (h : ∀ x ∈ before, x ≠ sep)
    (after : List Char) : cutFirst? sep (before ++ sep :: after) = some (before, after) := by
  have hall : ∀ x ∈ before, decide (x ≠ sep) = true := fun x hx => decide_eq_true (h x hx)
  have hstop : StopsBy (· ≠ sep) (sep :: after) := by simp
  simp only [cutFirst?, dropWhile_append_of_stopsBy hall hstop,
    takeWhile_append_of_stopsBy hall hstop]

theorem cutLast?_append {sep : Char} {after : List Char} (h : ∀ x ∈ after, x ≠ sep)
    (before : List Char) : cutLast? sep (before ++ sep :: after) = some (before, after) := by
  have hrev : (before ++ sep :: after).reverse = after.reverse ++ sep :: before.reverse := by simp
  have hcut := cutFirst?_append after.reverse
    (fun x hx => h x (List.mem_reverse.1 hx)) before.reverse
  simp only [cutLast?, hrev, hcut, Option.map_some, List.reverse_reverse]

/-! ## Cutting at a pattern -/

theorem dropPattern?_append (pattern rest : List Char) :
    dropPattern? pattern (pattern ++ rest) = some rest :=
  dropPattern?_eq_some.2 rfl

theorem cutPattern?_append (pattern rest : List Char) :
    cutPattern? pattern (pattern ++ rest) = some ([], rest) := by
  have h := dropPattern?_append pattern rest
  cases hp : pattern ++ rest with
  | nil => simp [cutPattern?, ← hp, h]
  | cons c cs => simp [cutPattern?, ← hp, h]

/-- One character is found as the first of its kind. -/
theorem cutPattern?_singleton {sep : Char} {before : List Char} (h : ∀ x ∈ before, x ≠ sep)
    (after : List Char) : cutPattern? [sep] (before ++ sep :: after) = some (before, after) := by
  induction before with
  | nil => exact cutPattern?_append [sep] after
  | cons c cs ih =>
    have hc : sep ≠ c := (h c List.mem_cons_self).symm
    simp only [List.cons_append, cutPattern?, dropPattern?, if_neg hc,
      ih fun x hx => h x (List.mem_cons_of_mem c hx), Option.map_some]

theorem cutFirst?_cons_of_ne {sep c : Char} (h : c ≠ sep) (cs : List Char) :
    cutFirst? sep (c :: cs) = (cutFirst? sep cs).map fun parts => (c :: parts.1, parts.2) := by
  have hdrop : (c :: cs).dropWhile (· ≠ sep) = cs.dropWhile (· ≠ sep) :=
    List.dropWhile_cons_of_pos (decide_eq_true h)
  have htake : (c :: cs).takeWhile (· ≠ sep) = c :: cs.takeWhile (· ≠ sep) :=
    List.takeWhile_cons_of_pos (decide_eq_true h)
  rw [cutFirst?, cutFirst?, hdrop, htake]
  cases cs.dropWhile (· ≠ sep) <;> rfl

/-- A text is cut at a character as at a pattern of it alone. -/
theorem cutPattern?_eq_cutFirst? (sep : Char) (cs : List Char) :
    cutPattern? [sep] cs = cutFirst? sep cs := by
  induction cs with
  | nil => rfl
  | cons c cs ih =>
    by_cases h : c = sep
    · have hfirst : cutFirst? sep (sep :: cs) = some ([], cs) := cutFirst?_append [] nofun cs
      rw [h, hfirst]
      exact cutPattern?_append [sep] cs
    · simp only [cutPattern?, dropPattern?, if_neg (Ne.symm h), ih, cutFirst?_cons_of_ne h]

end Lockstep.Text
