import Lockstep.Markup.Entity

/- Entities are read as what they were written for.

   `unescape_escape_append` reads an escaped text back, whatever follows it. `not_mem_escape` says
   which characters an escaped text does not hold, so that it neither ends a quoted value nor opens
   a tag. -/
namespace Lockstep.Markup

theorem unescape_cons_of_ne {c : Char} (h : c ≠ '&') (cs : List Char) :
    unescape (c :: cs) = c :: unescape cs := by
  rw [unescape] <;> rintro _ rfl <;> exact absurd rfl h

theorem unescape_escapeChar_append (c : Char) (rest : List Char) :
    unescape (escapeChar c ++ rest) = c :: unescape rest := by
  unfold escapeChar
  split
  · subst_vars
    rfl
  split
  · subst_vars
    rfl
  split
  · subst_vars
    rfl
  split
  · subst_vars
    rfl
  split
  · subst_vars
    rfl
  · rename_i h _ _ _ _
    exact unescape_cons_of_ne h rest

/-- An escaped text is read back, whatever follows it. -/
theorem unescape_escape_append (cs rest : List Char) :
    unescape (escape cs ++ rest) = cs ++ unescape rest := by
  induction cs with
  | nil => rfl
  | cons c cs ih =>
    rw [escape_cons, List.append_assoc, unescape_escapeChar_append, ih, List.cons_append]

theorem unescape_escape (cs : List Char) : unescape (escape cs) = cs := by
  have h := unescape_escape_append cs []
  rwa [List.append_nil, unescape, List.append_nil] at h

theorem unescape_of_forall_ne {cs : List Char} (h : ∀ c ∈ cs, c ≠ '&') : unescape cs = cs := by
  induction cs with
  | nil => rfl
  | cons c cs ih =>
    rw [unescape_cons_of_ne (h c List.mem_cons_self),
      ih fun x hx => h x (List.mem_cons_of_mem c hx)]

/-- The characters that an escaped text is free of. -/
theorem not_mem_escapeChar {x : Char} (hx : x = '<' ∨ x = '>' ∨ x = '"' ∨ x = '\'') (c : Char) :
    x ∉ escapeChar c := by
  unfold escapeChar
  rcases hx with rfl | rfl | rfl | rfl <;> (repeat' split) <;> simp_all [eq_comm]

theorem not_mem_escape {x : Char} (hx : x = '<' ∨ x = '>' ∨ x = '"' ∨ x = '\'') (cs : List Char) :
    x ∉ escape cs := by
  intro h
  obtain ⟨c, -, hc⟩ := List.mem_flatMap.1 h
  exact not_mem_escapeChar hx c hc

end Lockstep.Markup
