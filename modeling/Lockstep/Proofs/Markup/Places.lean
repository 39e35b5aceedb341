import Lockstep.Markup.Bytewise
import Lockstep.Proofs.Markup.Entity
import Lockstep.Proofs.Markup.Tags

/- Offsets that stand for places.

   1. `Cursor.In src c`: the cursor `c` is a place in the text `src`, so its offset is a boundary there. A
      slice between two such offsets is the text between the places (`slice_eq`).
   2. A class of bytes that all bytes of a character are in, or none (`Whole`), is skipped byte by byte just
      as the class of characters is skipped character by character (`skipWhile_eq`).
   3. A slice, a look at what a text goes on with and a text with its entities read are no traps at a place,
      and the same as over characters (`startsWith_eq`, `unescape_eq`). -/
namespace Lockstep.Markup
open Text

/-- A place in a text. -/
def Cursor.In (src : List Char) (c : Cursor) : Prop :=
  ∃ before, src = before ++ c.rest ∧ c.pos = byteSize before

namespace Cursor.In
variable {src : List Char} {c c' : Cursor}

theorem start (text : String) : (Cursor.start text).In text.toList := ⟨[], rfl, rfl⟩

/-- A place further on is a place in the text, too. -/
theorem forward (h : c.In src) {u : List Char} (hrest : c.rest = u ++ c'.rest)
    (hpos : c'.pos = c.pos + byteSize u) : c'.In src := by
  obtain ⟨before, hsrc, hbefore⟩ := h
  refine ⟨before ++ u, ?_, ?_⟩
  · rw [hsrc, hrest, List.append_assoc]
  · rw [hpos, hbefore, byteSize_append]

theorem isBoundary (h : c.In src) : IsBoundary src c.pos := by
  obtain ⟨before, hsrc, hbefore⟩ := h
  exact ⟨before, c.rest, hsrc, hbefore.symm⟩

theorem pos_add (h : c.In src) : c.pos + byteSize c.rest = byteSize src := by
  obtain ⟨before, hsrc, hbefore⟩ := h
  rw [hsrc, byteSize_append, hbefore]

theorem pos_le (h : c.In src) : c.pos ≤ byteSize src := h.isBoundary.le

/-- Of two places, the one with less behind it is further on. -/
theorem pos_lt (h : c.In src) (h' : c'.In src) (hlt : c'.rest.length < c.rest.length) :
    c.pos < c'.pos := by
  obtain ⟨before, rfl, hpos⟩ := h
  obtain ⟨before', hsrc, hpos'⟩ := h'
  rcases List.append_eq_append_iff.1 hsrc with ⟨u, rfl, hrest⟩ | ⟨u, -, hrest⟩
  · cases u with
    | nil =>
      rw [List.nil_append] at hrest
      rw [hrest] at hlt
      exact absurd hlt (Nat.lt_irrefl _)
    | cons x u =>
      have hx := x.utf8Size_pos
      rw [hpos, hpos', byteSize_append, byteSize_cons]
      omega
  · have hlength := congrArg List.length hrest
    rw [List.length_append] at hlength
    omega

theorem skipWhile (h : c.In src) (q : Char → Bool) : (c.skipWhile q).In src :=
  h.forward (List.takeWhile_append_dropWhile).symm rfl

theorem skipBlanks (h : c.In src) : c.skipBlanks.In src := h.skipWhile isAsciiBlank

end Cursor.In

/-- A place is looked for by its offset. It is found where the text has a boundary; an offset past the end
    counts as the end. -/
theorem Cursor.forward?_eq (n : Nat) (c : Cursor) :
    c.forward? n =
      (splitAt? (min n (byteSize c.rest)) c.rest).map fun parts =>
        ⟨c.pos + byteSize parts.1, parts.2⟩ := by
  obtain ⟨pos, rest⟩ := c
  show Cursor.forward?.go n pos rest = _
  induction rest generalizing n pos with
  | nil => rw [Cursor.forward?.go, byteSize_nil, Nat.min_zero]; rfl
  | cons x xs ih =>
    rw [Cursor.forward?.go]
    cases n with
    | zero => rw [if_pos rfl, Nat.zero_min]; rfl
    | succ n =>
      have hx := x.utf8Size_pos
      rw [if_neg (Nat.succ_ne_zero n), byteSize_cons]
      by_cases hlt : n + 1 < x.utf8Size
      · have hmin : min (n + 1) (x.utf8Size + byteSize xs) = n + 1 := by omega
        rw [if_pos hlt, hmin, splitAt?, if_neg (by omega)]
        rfl
      · obtain ⟨k, hk⟩ : ∃ k, min (n + 1) (x.utf8Size + byteSize xs) = k + 1 :=
          ⟨min (n + 1) (x.utf8Size + byteSize xs) - 1, by omega⟩
        have hrest : k + 1 - x.utf8Size = min (n + 1 - x.utf8Size) (byteSize xs) := by omega
        rw [if_neg hlt, ih, hk, splitAt?, if_pos (by omega), hrest, Option.map_map]
        simp only [Function.comp_def, byteSize_cons, Nat.add_assoc]


/-- What is found of a text is a place in it. -/
theorem Cursor.forward?_start {text : String} {offset : Nat} {c : Cursor}
    (h : (Cursor.start text).forward? offset = some c) :
    c.In text.toList ∧ c.pos = min offset (byteSize text.toList) := by
  rw [Cursor.forward?_eq] at h
  obtain ⟨parts, hparts, rfl⟩ := Option.map_eq_some_iff.1 h
  obtain ⟨hsrc, hsize⟩ := splitAt?_eq_some.1 hparts
  exact ⟨⟨parts.1, hsrc, Nat.zero_add _⟩, (Nat.zero_add _).trans hsize⟩

theorem Cursor.forward?_start_eq_none {text : String} {offset : Nat} :
    (Cursor.start text).forward? offset = none ↔
      ¬ IsBoundary text.toList (min offset (byteSize text.toList)) := by
  rw [Cursor.forward?_eq, Option.map_eq_none_iff, isBoundary_iff, Option.not_isSome_iff_eq_none]
  exact Iff.rfl

/-- Every place of a text is found by its offset. -/
theorem Cursor.In.forward?_start {text : String} {c : Cursor} (h : c.In text.toList) :
    (Cursor.start text).forward? c.pos = some c := by
  obtain ⟨before, hsrc, hpos⟩ := id h
  have hsplit := splitAt?_byteSize before c.rest
  have hmin : min c.pos (byteSize (Cursor.start text).rest) = byteSize before := by
    rw [← hpos]
    exact Nat.min_eq_left h.pos_le
  rw [Cursor.forward?_eq, hmin, Cursor.start, hsrc, hsplit, Option.map_some, Nat.zero_add, ← hpos]

namespace Bytewise
variable {ε α β γ σ : Type} {src : List Char} {c : Cursor}

/-! ## Slices -/

theorem slice_append (a b rest : List Char) :
    slice (a ++ (b ++ rest)) (byteSize a) (byteSize a + byteSize b) = (.ok b : Checked ε (List Char)) := by
  have hlast := splitAt?_byteSize (a ++ b) rest
  rw [List.append_assoc, byteSize_append] at hlast
  rw [slice, hlast]
  dsimp only
  rw [splitAt?_byteSize]

theorem slice_front (part rest : List Char) :
    slice (part ++ rest) 0 (byteSize part) = (.ok part : Checked ε (List Char)) := by
  have hslice := slice_append (ε := ε) [] part rest
  rwa [byteSize_nil, Nat.zero_add] at hslice

/-- Between two places, a slice is the text between them. -/
theorem slice_eq (hc : c.In src) {part rest : List Char} (hrest : c.rest = part ++ rest) :
    slice src c.pos (c.pos + byteSize part) = (.ok part : Checked ε (List Char)) := by
  obtain ⟨before, rfl, hpos⟩ := hc
  rw [hpos, hrest]
  exact slice_append before part rest

theorem sliceFrom_eq (hc : c.In src) : sliceFrom src c.pos = (.ok c.rest : Checked ε (List Char)) := by
  rw [sliceFrom, ← hc.pos_add]
  exact slice_eq hc (List.append_nil _).symm

/-- An offset within a character is no end of a slice. -/
example : slice ['ß'] 1 2 = (.error (.badSlice 1 2) : Checked Fault (List Char)) := rfl

theorem sliceFrom_append (a b : List Char) :
    sliceFrom (a ++ b) (byteSize a) = (.ok b : Checked ε (List Char)) :=
  sliceFrom_eq (c := ⟨byteSize a, b⟩) ⟨a, rfl, rfl⟩

/-- Whether a text goes on with a pattern is seen at any place of it. -/
theorem startsWith_eq (hc : c.In src) (pattern : List Char) :
    startsWith src pattern c.pos = (.ok (dropPattern? pattern c.rest).isSome : Checked ε Bool) := by
  rw [startsWith, sliceFrom_eq hc]
  rfl

/-! ## Loops -/

section
variable {size : Nat} {place : σ → Nat} {round : σ → Checked ε (Round σ α)} {s s' : σ}

theorem iterate_done {a : α} (h : round s = .ok (.done a)) : iterate size place round s = .ok a := by
  rw [iterate, h]

theorem iterate_error {stop : Stop ε} (h : round s = .error stop) :
    iterate size place round s = .error stop := by
  rw [iterate, h]

/-- A round that gets further is gone on from. -/
theorem iterate_again (h : round s = .ok (.again s')) (hlt : place s < place s') (hle : place s' ≤ size) :
    iterate size place round s = iterate size place round s' := by
  rw [iterate, h]
  exact if_pos ⟨hlt, hle⟩

end

/-! ## Bytes -/

theorem peek_eq (hc : c.In src) : peek src c.pos = (bytesOf c.rest).head? := by
  obtain ⟨before, rfl, hpos⟩ := hc
  rw [peek, hpos, bytesOf_append, ← length_bytesOf, List.getElem?_append_right (Nat.le_refl _),
    Nat.sub_self, List.head?_eq_getElem?]

/-- There is a byte at every place but the end. -/
theorem peek_eq_none_iff (hc : c.In src) : peek src c.pos = none ↔ c.rest = [] := by
  rw [peek_eq hc]
  cases c.rest with
  | nil => exact ⟨fun _ => rfl, fun _ => rfl⟩
  | cons x xs => simp [String.utf8EncodeChar_ne_nil]

/-- A character below U+0080 is seen where it stands. -/
theorem standsAt_iff (hc : c.In src) {x : Char} (hx : x.toNat < 128) :
    standsAt src x c.pos = true ↔ ∃ rest, c.rest = x :: rest := by
  rw [standsAt, decide_eq_true_iff, peek_eq hc]
  cases hrest : c.rest with
  | nil => simp
  | cons y ys =>
    obtain ⟨b, bs, hb⟩ := List.exists_cons_of_ne_nil (String.utf8EncodeChar_ne_nil (c := y))
    have hmem : b ∈ String.utf8EncodeChar y := by
      rw [hb]
      exact List.mem_cons_self
    rw [bytesOf_cons, hb, List.cons_append, List.head?_cons, Option.some.injEq, eq_toUInt8_iff hx hmem]
    constructor
    · rintro rfl
      exact ⟨ys, rfl⟩
    · rintro ⟨rest, heq⟩
      exact (List.cons.inj heq).1

/-- A class of bytes that holds all bytes of the characters of a class, and none of any other's. -/
def Whole (p : UInt8 → Bool) (q : Char → Bool) : Prop :=
  ∀ c, ∀ b ∈ String.utf8EncodeChar c, p b = q c

theorem Whole.not {p : UInt8 → Bool} {q : Char → Bool} (h : Whole p q) :
    Whole (fun b => !p b) fun c => !q c := fun c b hb => congrArg (!·) (h c b hb)

theorem Whole.or {p p' : UInt8 → Bool} {q q' : Char → Bool} (h : Whole p q) (h' : Whole p' q') :
    Whole (fun b => p b || p' b) fun c => q c || q' c := fun c b hb => by
  show (p b || p' b) = (q c || q' c)
  rw [h c b hb, h' c b hb]

/-- A byte below 128 is a character. -/
theorem whole_eq {x : Char} (hx : x.toNat < 128) : Whole (· = x.toUInt8) (· = x) := fun _ _ hb =>
  decide_eq_decide.2 (eq_toUInt8_iff hx hb)

theorem whole_ne {x : Char} (hx : x.toNat < 128) : Whole (· ≠ x.toUInt8) (· ≠ x) := fun _ _ hb =>
  decide_eq_decide.2 (not_congr (eq_toUInt8_iff hx hb))

theorem whole_isBlankByte : Whole isBlankByte isAsciiBlank :=
  ((((whole_eq (by decide)).or (whole_eq (by decide))).or (whole_eq (by decide))).or
    (whole_eq (by decide))).or (whole_eq (by decide))

theorem whole_endsNameByte : Whole endsNameByte endsName :=
  (((whole_isBlankByte.or (whole_eq (by decide))).or (whole_eq (by decide))).or
    (whole_eq (by decide))).or (whole_eq (by decide))

/-- The bytes of a class at the front of a text are those of its first characters. -/
theorem takeWhile_bytesOf {p : UInt8 → Bool} {q : Char → Bool} (h : Whole p q) (cs : List Char) :
    (bytesOf cs).takeWhile p = bytesOf (cs.takeWhile q) := by
  induction cs with
  | nil => rfl
  | cons c cs ih =>
    by_cases hc : q c = true
    · rw [List.takeWhile_cons_of_pos hc, bytesOf_cons, bytesOf_cons, ← ih]
      exact List.takeWhile_append_of_pos fun b hb => (h c b hb).trans hc
    · obtain ⟨b, bs, hb⟩ := List.exists_cons_of_ne_nil (String.utf8EncodeChar_ne_nil (c := c))
      have hfirst : ¬ p b = true := by
        rw [h c b (hb ▸ List.mem_cons_self)]
        exact hc
      rw [List.takeWhile_cons_of_neg hc, bytesOf_cons, hb, List.cons_append,
        List.takeWhile_cons_of_neg hfirst]
      rfl

/-- Bytes are skipped one by one. -/
theorem skipWhile_bytes (p : UInt8 → Bool) {front back : List UInt8} (h : bytesOf src = front ++ back) :
    skipWhile src p front.length =
      (.ok (front.length + (back.takeWhile p).length) : Checked ε Nat) := by
  have hsize : front.length + back.length = byteSize src := by
    rw [← length_bytesOf, h, List.length_append]
  induction back generalizing front with
  | nil =>
    apply iterate_done
    rw [peek, h, List.append_nil, List.getElem?_eq_none (Nat.le_refl _)]
    rfl
  | cons b back ih =>
    have hpeek : peek src front.length = some b := by
      rw [peek, h, List.getElem?_append_right (Nat.le_refl _), Nat.sub_self]
      rfl
    rw [List.length_cons] at hsize
    by_cases hb : p b = true
    · have hnext := @ih (front ++ [b]) (by rw [h, List.append_assoc]; rfl)
        (by rw [List.length_append, List.length_singleton]; omega)
      rw [List.length_append, List.length_singleton] at hnext
      rw [List.takeWhile_cons_of_pos hb, List.length_cons, Nat.add_comm _ 1, ← Nat.add_assoc, ← hnext]
      apply iterate_again
      · rw [hpeek, Option.any_some, if_pos hb]
      · exact Nat.lt_succ_self _
      · show front.length + 1 ≤ byteSize src
        omega
    · rw [List.takeWhile_cons_of_neg hb]
      apply iterate_done
      rw [hpeek, Option.any_some, if_neg hb]
      rfl

/-- So are the characters that the bytes belong to. -/
theorem skipWhile_eq {p : UInt8 → Bool} {q : Char → Bool} (h : Whole p q) (hc : c.In src) :
    skipWhile src p c.pos = (.ok (c.skipWhile q).pos : Checked ε Nat) := by
  obtain ⟨before, rfl, hpos⟩ := hc
  have hskip := skipWhile_bytes (ε := ε) p (bytesOf_append before c.rest)
  rw [length_bytesOf, takeWhile_bytesOf h, length_bytesOf] at hskip
  rw [hpos, hskip, Cursor.skipWhile, hpos]

theorem skipBlanks_eq (hc : c.In src) :
    skipBlanks src c.pos = (.ok c.skipBlanks.pos : Checked ε Nat) := skipWhile_eq whole_isBlankByte hc

/-! ## Entities -/

/-- What stands at an ampersand: an entity, or none. -/
theorem entity_cases (after : List Char) :
    (∃ entity x rest, (entity, x) ∈ entities ∧ '&' :: after = entity ++ rest ∧
        (entities.find? fun entity => (dropPattern? entity.1 ('&' :: after)).isSome) = some (entity, x) ∧
        Markup.unescape ('&' :: after) = x :: Markup.unescape rest) ∨
      (entities.find? fun entity => (dropPattern? entity.1 ('&' :: after)).isSome) = none ∧
        Markup.unescape ('&' :: after) = '&' :: Markup.unescape after := by
  generalize hcs : '&' :: after = cs
  rw [Markup.unescape.eq_def]
  split
  · rename_i rest
    exact .inl ⟨_, '&', rest, by decide, rfl, rfl, rfl⟩
  · rename_i rest
    exact .inl ⟨_, '<', rest, by decide, rfl, rfl, rfl⟩
  · rename_i rest
    exact .inl ⟨_, '>', rest, by decide, rfl, rfl, rfl⟩
  · rename_i rest
    exact .inl ⟨_, '"', rest, by decide, rfl, rfl, rfl⟩
  · rename_i rest
    exact .inl ⟨_, '\'', rest, by decide, rfl, rfl, rfl⟩
  · rename_i hamp hlt hgt hquot hapos
    obtain ⟨rfl, rfl⟩ := List.cons.inj hcs
    refine .inr ⟨?_, rfl⟩
    rw [List.find?_eq_none]
    intro entity hentity hstarts
    obtain ⟨rest, hrest⟩ := Option.isSome_iff_exists.1 hstarts
    have heq := dropPattern?_eq_some.1 hrest
    simp only [entities, List.mem_cons, List.not_mem_nil, or_false] at hentity
    rcases hentity with rfl | rfl | rfl | rfl | rfl
    · exact hamp rest rfl (List.cons.inj heq).2
    · exact hlt rest rfl (List.cons.inj heq).2
    · exact hgt rest rfl (List.cons.inj heq).2
    · exact hquot rest rfl (List.cons.inj heq).2
    · exact hapos rest rfl (List.cons.inj heq).2
  · cases hcs

theorem unescape_append_ampersand {before : List Char} (h : '&' ∉ before) (after : List Char) :
    Markup.unescape (before ++ '&' :: after) = before ++ Markup.unescape ('&' :: after) := by
  induction before with
  | nil => rfl
  | cons x before ih =>
    have hx : x ≠ '&' := fun hx => h (hx ▸ List.mem_cons_self)
    rw [List.cons_append, unescape_cons_of_ne hx, ih fun hmem => h (List.mem_cons_of_mem x hmem),
      List.cons_append]

/-- A round reads up to an ampersand and what stands there, and leaves the rest, which is shorter. -/
theorem exists_entityRound {before : List Char} (hbefore : '&' ∉ before) (after out : List Char) :
    ∃ x front rest, front ≠ [] ∧ before ++ '&' :: after = before ++ (front ++ rest) ∧
      Markup.unescape (before ++ '&' :: after) = before ++ x :: Markup.unescape rest ∧
      entityRound (out, before ++ '&' :: after) =
        (.ok (.again (out ++ before ++ [x], rest)) :
          Checked ε (Round (List Char × List Char) (List Char))) := by
  have hcut : cutPattern? ['&'] (before ++ '&' :: after) = some (before, after) :=
    cutPattern?_singleton (fun x hx => ne_of_mem_of_not_mem hx hbefore) after
  have hfront := slice_front (ε := ε) before ('&' :: after)
  have hback := sliceFrom_append (ε := ε) before ('&' :: after)
  rw [unescape_append_ampersand hbefore]
  rcases entity_cases after with ⟨entity, x, rest, hentity, heq, hfind, hread⟩ | ⟨hfind, hread⟩
  · have hall : ∀ entity ∈ entities, entity.1 ≠ [] := by decide
    have hrest := sliceFrom_append (ε := ε) entity rest
    rw [← heq] at hrest
    refine ⟨x, entity, rest, hall _ hentity, by rw [heq], by rw [hread], ?_⟩
    simp only [entityRound, hcut, bind, Except.bind, hfront, hback, hfind, hrest]
    rfl
  · have hrest : sliceFrom ('&' :: after) 1 = (.ok after : Checked ε (List Char)) :=
      sliceFrom_append ['&'] after
    refine ⟨'&', ['&'], after, List.cons_ne_nil _ _, rfl, by rw [hread], ?_⟩
    simp only [entityRound, hcut, bind, Except.bind, hfront, hback, hfind, hrest]
    rfl

theorem cutPattern?_of_not_mem {x : Char} {cs : List Char} (h : x ∉ cs) : cutPattern? [x] cs = none := by
  cases hcut : cutPattern? [x] cs with
  | none => rfl
  | some parts =>
    apply absurd _ h
    rw [cutPattern?_eq_some hcut]
    simp

/-- What is left of a text, with its entities read, goes to what was read. -/
theorem iterate_entityRound {text : List Char} (out : List Char) {rest : List Char}
    (h : byteSize rest ≤ byteSize text) :
    iterate (byteSize text) (fun s => byteSize text - byteSize s.2) entityRound (out, rest) =
      (.ok (out ++ Markup.unescape rest) : Checked ε (List Char)) := by
  -- An entity is longer than a character, so the induction is on what is left.
  induction hn : rest.length using Nat.strongRecOn generalizing out rest with
  | _ n ih =>
  subst hn
  by_cases hmem : '&' ∈ rest
  · obtain ⟨before, after, rfl, hbefore⟩ := List.eq_append_cons_of_mem hmem
    obtain ⟨x, front, rest, hne, heq, hread, hround⟩ := exists_entityRound (ε := ε) hbefore after out
    have hsize : byteSize (before ++ '&' :: after) = byteSize before + (byteSize front + byteSize rest) := by
      rw [heq, byteSize_append, byteSize_append]
    have hlength : (before ++ '&' :: after).length = before.length + (front.length + rest.length) := by
      rw [heq, List.length_append, List.length_append]
    have hfront := List.length_pos_iff.2 hne
    have hbytes := length_le_byteSize front
    have hlt : byteSize text - byteSize (before ++ '&' :: after) < byteSize text - byteSize rest := by
      omega
    rw [hread, iterate_again hround hlt (Nat.sub_le ..), ih rest.length (by omega) _ (by omega) rfl]
    simp only [List.append_assoc, List.singleton_append]
  · rw [unescape_of_forall_ne fun x hx hxe => hmem (hxe ▸ hx)]
    apply iterate_done
    simp only [entityRound, cutPattern?_of_not_mem hmem]
    rfl

theorem unescape_eq (text : List Char) :
    unescape text = (.ok (Markup.unescape text) : Checked ε (List Char)) :=
  iterate_entityRound [] (Nat.le_refl _)

end Bytewise
end Lockstep.Markup
