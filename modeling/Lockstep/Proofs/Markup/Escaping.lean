import Lockstep.Proofs.Markup.Elements
import Lockstep.Proofs.Markup.Places

/- Escaped text among markup.

   1. An ampersand of an escaped text begins an entity (`exists_entity_of_escape`).
   2. An escaped text may stand between quotes of either sort (`isQuoted_escape`) and in the content of an
      element (`fills_escape`). What is read there is the text that was escaped. -/
namespace Lockstep.Markup
open Text

/-! ## Ampersands -/

/-- A character is written as an entity, which has one ampersand, or as itself. -/
theorem escapeChar_cases (c : Char) :
    (∃ tail, ('&' :: tail, c) ∈ Bytewise.entities ∧ '&' ∉ tail ∧ escapeChar c = '&' :: tail) ∨
      escapeChar c = [c] ∧ c ≠ '&' := by
  by_cases hmarkup : c ∈ ['&', '<', '>', '"', '\'']
  · left
    simp only [List.mem_cons, List.not_mem_nil, or_false] at hmarkup
    rcases hmarkup with rfl | rfl | rfl | rfl | rfl
    · exact ⟨['a', 'm', 'p', ';'], by decide, by decide, rfl⟩
    · exact ⟨['l', 't', ';'], by decide, by decide, rfl⟩
    · exact ⟨['g', 't', ';'], by decide, by decide, rfl⟩
    · exact ⟨['q', 'u', 'o', 't', ';'], by decide, by decide, rfl⟩
    · exact ⟨['a', 'p', 'o', 's', ';'], by decide, by decide, rfl⟩
  · right
    simp only [List.mem_cons, List.not_mem_nil, or_false, not_or] at hmarkup
    obtain ⟨hamp, hlt, hgt, hquot, hapos⟩ := hmarkup
    exact ⟨by simp only [escapeChar, hamp, hlt, hgt, hquot, hapos, if_false], hamp⟩

/-- A character that is not in the front of a text stands behind that front. -/
theorem exists_of_append_eq_append_cons {x : Char} {a b before after : List Char} (hx : x ∉ a)
    (h : a ++ b = before ++ x :: after) :
    ∃ between, before = a ++ between ∧ b = between ++ x :: after := by
  rcases List.append_eq_append_iff.1 h with ⟨between, hbefore, hb⟩ | ⟨between, ha, hafter⟩
  · exact ⟨between, hbefore, hb⟩
  · cases between with
    | nil => exact ⟨[], by rw [ha, List.append_nil, List.append_nil], hafter.symm⟩
    | cons y between =>
      obtain rfl : x = y := (List.cons.inj hafter).1
      exact absurd (by rw [ha]; exact List.mem_append_right _ List.mem_cons_self) hx

/-- Every ampersand of an escaped text begins an entity. -/
theorem exists_entity_of_escape {cs before after : List Char} (h : escape cs = before ++ '&' :: after) :
    ∃ entity ∈ Bytewise.entities, entity.1 <+: '&' :: after := by
  induction cs generalizing before with
  | nil => exact absurd (congrArg ('&' ∈ ·) h) (by simp)
  | cons c cs ih =>
    rw [escape_cons] at h
    rcases escapeChar_cases c with ⟨tail, hentity, htail, hc⟩ | ⟨hc, hne⟩
    · rw [hc] at h
      cases before with
      | nil => exact ⟨_, hentity, escape cs, h⟩
      | cons y before =>
        obtain ⟨between, -, hrest⟩ := exists_of_append_eq_append_cons htail (List.cons.inj h).2
        exact ih hrest
    · rw [hc] at h
      have hsingle : '&' ∉ [c] := by simpa using hne.symm
      obtain ⟨between, -, hrest⟩ := exists_of_append_eq_append_cons hsingle h
      exact ih hrest

/-! ## Places for text -/

/-- Between quotes of either sort, an escaped text says the text. -/
theorem isQuoted_escape {quote : Char} (hq : quote = '"' ∨ quote = '\'') (text : String) :
    IsQuoted (quote :: escape text.toList ++ [quote]) text := by
  have hfree : quote = '<' ∨ quote = '>' ∨ quote = '"' ∨ quote = '\'' := .inr (.inr hq)
  refine ⟨quote, escape text.toList, hq, ?_, rfl, ?_⟩
  · rintro c hc rfl
    exact not_mem_escape hfree _ hc
  · rw [unescape_escape, String.ofList_toList]

theorem addText_escape (o : Open) (cs : List Char) :
    o.addText (escape cs) = { o with text := o.text ++ String.ofList cs } := by
  rw [Open.addText, unescape_escape]

/-- An escaped text is content, with nothing in it but the text. -/
theorem fills_escape {depth pos : Nat} (cs : List Char) (o : Open) :
    Fills depth pos (escape cs) o (o.addText (escape cs)) := by
  by_cases hnil : escape cs = []
  · have ho : o.addText [] = o := by
      show { o with text := o.text ++ String.ofList (unescape []) } = o
      rw [unescape, String.ofList_nil, String.append_empty]
    rw [hnil, ho]
    exact .done
  · have hbracket : ∀ c ∈ escape cs, c ≠ '<' := by
      rintro c hc rfl
      exact not_mem_escape (.inl rfl) cs hc
    have hfills : Fills depth pos (escape cs ++ []) o _ :=
      .text hnil hbracket (stopsBy_nil _) .done
    rwa [List.append_nil] at hfills

/-- An escaped text is read as what it was, whatever follows it and whatever looks like an entity in it or
    behind it. It has no bracket and no quote, and every ampersand of it begins an entity. So it is the whole
    of a value between quotes of either sort, and it is all character data in the content of an element. -/
theorem escaped_text_safe (s t : String) :
    unescapeText (escapeText s ++ t) = s ++ unescapeText t ∧ unescapeText (escapeText s) = s ∧
    Bytewise.unescape (escapeText s ++ t).toList =
      (.ok (s ++ unescapeText t).toList : Bytewise.Checked Fault (List Char)) ∧
    (∀ x ∈ ['<', '>', '"', '\''], x ∉ (escapeText s).toList) ∧
    (∀ before after, (escapeText s).toList = before ++ '&' :: after →
      ∃ entity ∈ Bytewise.entities, entity.1 <+: '&' :: after) ∧
    (∀ quote ∈ ['"', '\''], ∀ (pos : Nat) (rest : List Char),
      readValue ⟨pos, quote :: (escapeText s).toList ++ quote :: rest⟩ =
        .ok (s, ⟨pos + (escapeText s).utf8ByteSize + 2, rest⟩)) ∧
    ∀ (outer : List Open) (o : Open) (pos : Nat) (rest : List Char),
      run outer o ⟨pos, (escapeText s).toList ++ '<' :: rest⟩ =
        run outer { o with text := o.text ++ s } ⟨pos + (escapeText s).utf8ByteSize, '<' :: rest⟩ := by
  have hchars : (escapeText s).toList = escape s.toList := String.toList_ofList
  have hsize : (escapeText s).utf8ByteSize = byteSize (escape s.toList) := by
    rw [← hchars, byteSize_toList]
  have hread : unescape (escapeText s ++ t).toList = (s ++ unescapeText t).toList := by
    rw [String.toList_append, String.toList_append, hchars, unescapeText, String.toList_ofList,
      unescape_escape_append]
  rw [hchars, hsize]
  refine ⟨?_, ?_, ?_, fun x hx => ?_, fun before after => exists_entity_of_escape,
    fun quote hq pos rest => ?_, fun outer o pos rest => ?_⟩
  · rw [unescapeText, hread, String.ofList_toList]
  · rw [unescapeText, hchars, unescape_escape, String.ofList_toList]
  · rw [Bytewise.unescape_eq, hread]
  · exact not_mem_escape (by simpa using hx) s.toList
  · have hquote : quote = '"' ∨ quote = '\'' := by simpa using hq
    have hone : quote.utf8Size = 1 := by rcases hquote with rfl | rfl <;> rfl
    have hspan : pos + byteSize (quote :: escape s.toList ++ [quote]) =
        pos + byteSize (escape s.toList) + 2 := by
      rw [byteSize_append, byteSize_cons, byteSize_cons, byteSize_nil, hone]
      omega
    have hvalue := (isQuoted_escape hquote s).takes pos rest
    rwa [List.append_assoc, List.singleton_append, hspan] at hvalue
  · have hstop : StopsBy (· ≠ '<') ('<' :: rest) := by simp
    have hfills : Fills (outer.length + 1) pos (escape s.toList) o _ := fills_escape s.toList o
    have hrun := run_of_fills hfills outer rfl hstop
    rwa [addText_escape, String.ofList_toList] at hrun

end Lockstep.Markup
