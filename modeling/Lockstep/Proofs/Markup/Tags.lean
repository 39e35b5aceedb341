import Lockstep.Markup.Parser
import Lockstep.Proofs.Text.Span

/- The grammar of tags, and that the readers of tags follow it.

   1. `Takes f u a`: in front of `u`, at any place and whatever follows `u`, the reader `f` gives `a`
      and stops right behind `u`. `Passes` is the same for steps that give only a place.
   2. `IsQuoted`, `IsAttribute`, `IsTagEnd`, `IsOpenTag` and `IsCloseTag` say which texts are what,
      without a reader. Each reader takes the texts of its kind (`IsOpenTag.takes` and its like),
      and whenever it succeeds, what it went over is such a text (`exists_openTag`). So no reader
      of a tag depends on what stands behind the tag. -/
namespace Lockstep.Markup
open Text

/-- `f` reads `a` from `u`, whatever follows. -/
def Takes {α : Type} (f : Cursor → Except Fault (α × Cursor)) (u : List Char) (a : α) : Prop :=
  ∀ pos rest, f ⟨pos, u ++ rest⟩ = .ok (a, ⟨pos + byteSize u, rest⟩)

/-- `f` goes over `u`, whatever follows. -/
def Passes (f : Cursor → Except Fault Cursor) (u : List Char) : Prop :=
  ∀ pos rest, f ⟨pos, u ++ rest⟩ = .ok ⟨pos + byteSize u, rest⟩

/-- A reader that went over a text it takes stands right behind it. -/
theorem Takes.place {α : Type} {f : Cursor → Except Fault (α × Cursor)} {u : List Char} {a a' : α}
    {c c' : Cursor} (h : Takes f u a) (hc : c.rest = u ++ c'.rest) (hf : f c = .ok (a', c')) :
    c' = ⟨c.pos + byteSize u, c'.rest⟩ := by
  have hread := h c.pos c'.rest
  rw [← hc, hf] at hread
  exact congrArg Prod.snd (Except.ok.inj hread)

theorem Passes.place {f : Cursor → Except Fault Cursor} {u : List Char} {c c' : Cursor}
    (h : Passes f u) (hc : c.rest = u ++ c'.rest) (hf : f c = .ok c') :
    c' = ⟨c.pos + byteSize u, c'.rest⟩ := by
  have hread := h c.pos c'.rest
  rw [← hc, hf] at hread
  exact Except.ok.inj hread

/-- Something is seen only of what a reading gives. -/
theorem exists_ok_of_toOption {ε α β : Type} (outcome : Except ε α) {f : α → β} {b : β}
    (h : outcome.toOption.map f = some b) : ∃ a, outcome = .ok a ∧ f a = b := by
  cases outcome with
  | error e => cases h
  | ok a => exact ⟨a, rfl, Option.some.inj h⟩

theorem skipWhile_append_of_stopsBy {p : Char → Bool} {u rest : List Char} (pos : Nat)
    (hu : ∀ x ∈ u, p x = true) (hr : StopsBy p rest) :
    Cursor.skipWhile p ⟨pos, u ++ rest⟩ = ⟨pos + byteSize u, rest⟩ := by
  simp only [Cursor.skipWhile, takeWhile_append_of_stopsBy hu hr,
    dropWhile_append_of_stopsBy hu hr]

/-- Every place is at the front of the characters it would skip. -/
theorem exists_skipWhile (p : Char → Bool) (c : Cursor) :
    ∃ u, c.rest = u ++ (c.skipWhile p).rest ∧ (∀ x ∈ u, p x = true) ∧
      StopsBy p (c.skipWhile p).rest ∧ c.skipWhile p = ⟨c.pos + byteSize u, (c.skipWhile p).rest⟩ :=
  ⟨c.rest.takeWhile p, (List.takeWhile_append_dropWhile).symm,
    List.all_eq_true.1 List.all_takeWhile, stopsBy_dropWhile p c.rest, rfl⟩

/-! ## Blanks, names and single characters -/

/-- A text of blanks, as they may stand between the parts of a tag. -/
def IsGap (cs : List Char) : Prop := ∀ x ∈ cs, isAsciiBlank x = true

/-- A text that can be the name of a tag or an attribute. -/
def IsName (cs : List Char) : Prop := cs ≠ [] ∧ ∀ x ∈ cs, endsName x = false

instance (cs : List Char) : Decidable (IsName cs) :=
  decidable_of_iff (cs ≠ [] ∧ (cs.all fun x => !endsName x) = true) (by simp [IsName])

theorem isGap_space : IsGap [' '] := List.forall_mem_singleton.2 rfl

theorem isGap_nil : IsGap [] := by simp [IsGap]

theorem skipBlanks_append {gap : List Char} (pos : Nat) (rest : List Char) (hg : IsGap gap)
    (hr : StopsBy isAsciiBlank rest) :
    Cursor.skipBlanks ⟨pos, gap ++ rest⟩ = ⟨pos + byteSize gap, rest⟩ :=
  skipWhile_append_of_stopsBy pos hg hr

theorem exists_skipBlanks (c : Cursor) :
    ∃ gap, c.rest = gap ++ c.skipBlanks.rest ∧ IsGap gap ∧
      StopsBy isAsciiBlank c.skipBlanks.rest ∧
      c.skipBlanks = ⟨c.pos + byteSize gap, c.skipBlanks.rest⟩ :=
  exists_skipWhile isAsciiBlank c

theorem isAsciiBlank_of_not_endsName {c : Char} (h : endsName c = false) :
    isAsciiBlank c = false := by
  simp only [endsName, Bool.or_eq_false_iff] at h
  exact h.1.1.1.1

theorem readName_append {u rest : List Char} (pos : Nat) (hu : IsName u)
    (hr : StopsBy (!endsName ·) rest) :
    readName ⟨pos, u ++ rest⟩ = .ok (String.ofList u, ⟨pos + byteSize u, rest⟩) := by
  have hall : ∀ x ∈ u, (!endsName x) = true := fun x hx => by simp [hu.2 x hx]
  unfold readName
  rw [skipWhile_append_of_stopsBy pos hall hr]
  simp only [takeWhile_append_of_stopsBy hall hr]
  cases u with
  | nil => exact absurd rfl hu.1
  | cons x xs => rfl

theorem exists_readName {c c' : Cursor} {s : String} (h : readName c = .ok (s, c')) :
    ∃ u, c.rest = u ++ c'.rest ∧ s = String.ofList u ∧ IsName u ∧
      StopsBy (!endsName ·) c'.rest ∧ c' = ⟨c.pos + byteSize u, c'.rest⟩ := by
  obtain ⟨u, hu, hall, hstop, hplace⟩ := exists_skipWhile (!endsName ·) c
  unfold readName at h
  have htake : c.rest.takeWhile (!endsName ·) = u := by
    rw [hu, takeWhile_append_of_stopsBy hall hstop]
  rw [htake] at h
  cases u with
  | nil => cases h
  | cons x xs =>
    cases h
    exact ⟨x :: xs, hu, rfl, ⟨List.cons_ne_nil x xs, fun y hy => by simpa using hall y hy⟩, hstop,
      hplace⟩

theorem passes_expect (wanted : Char) : Passes (expect wanted) [wanted] := by
  intro pos rest
  simp [expect]

theorem exists_expect {wanted : Char} {c c' : Cursor} (h : expect wanted c = .ok c') :
    c.rest = wanted :: c'.rest ∧ c' = ⟨c.pos + wanted.utf8Size, c'.rest⟩ := by
  unfold expect at h
  split at h
  · cases h
  · rename_i hc
    split at h
    · rename_i hw
      cases h
      exact ⟨by rw [hc, hw], by rw [hw]⟩
    · cases h

/-! ## Attributes -/

/-- A text between quotes of one sort, and what it says once its entities are read. -/
def IsQuoted (u : List Char) (text : String) : Prop :=
  ∃ quote body, (quote = '"' ∨ quote = '\'') ∧ (∀ x ∈ body, x ≠ quote) ∧
    u = quote :: body ++ [quote] ∧ text = String.ofList (unescape body)

/-- A key, an equals sign and a quoted text. -/
def IsAttribute (u : List Char) (pair : String × String) : Prop :=
  ∃ key gap gap' value, IsName key ∧ IsGap gap ∧ IsGap gap' ∧ IsQuoted value pair.2 ∧
    u = key ++ (gap ++ '=' :: (gap' ++ value)) ∧ pair.1 = String.ofList key

theorem readQuoted_append {quote : Char} {body : List Char} (pos : Nat) (rest : List Char)
    (hb : ∀ x ∈ body, x ≠ quote) :
    readQuoted quote ⟨pos, body ++ quote :: rest⟩ =
      .ok (String.ofList (unescape body), ⟨pos + byteSize body + quote.utf8Size, rest⟩) := by
  have hall : ∀ x ∈ body, decide (x ≠ quote) = true := fun x hx => decide_eq_true (hb x hx)
  have hstop : StopsBy (· ≠ quote) (quote :: rest) := by simp
  unfold readQuoted
  rw [skipWhile_append_of_stopsBy pos hall hstop]
  simp only [takeWhile_append_of_stopsBy hall hstop]

theorem exists_readQuoted {quote : Char} {c c' : Cursor} {s : String}
    (h : readQuoted quote c = .ok (s, c')) :
    ∃ body, c.rest = body ++ quote :: c'.rest ∧ (∀ x ∈ body, x ≠ quote) ∧
      s = String.ofList (unescape body) := by
  obtain ⟨body, hrest, hall, hstop, -⟩ := exists_skipWhile (· ≠ quote) c
  unfold readQuoted at h
  split at h
  · cases h
  · rename_i close rest hc
    rw [hc] at hrest hstop
    have hclose : close = quote := by simpa using (stopsBy_cons (· ≠ quote) close rest).1 hstop
    have htake : c.rest.takeWhile (· ≠ quote) = body := by
      rw [hrest, takeWhile_append_of_stopsBy hall hstop]
    rw [htake] at h
    cases h
    exact ⟨body, by rw [hrest, hclose], fun x hx => by simpa using hall x hx, rfl⟩

theorem IsQuoted.takes {u : List Char} {text : String} (h : IsQuoted u text) :
    Takes readValue u text := by
  obtain ⟨quote, body, hq, hb, rfl, rfl⟩ := h
  intro pos rest
  have hread := readQuoted_append (pos + 1) rest hb
  have hplace : pos + byteSize (quote :: body ++ [quote]) =
      pos + 1 + byteSize body + quote.utf8Size := by
    have hsize : quote.utf8Size = 1 := by rcases hq with rfl | rfl <;> rfl
    simp only [byteSize_append, byteSize_cons, byteSize_nil, hsize]
    omega
  rw [hplace]
  rcases hq with rfl | rfl <;> simpa [readValue] using hread

theorem exists_quoted {c c' : Cursor} {s : String} (h : readValue c = .ok (s, c')) :
    ∃ u, c.rest = u ++ c'.rest ∧ IsQuoted u s := by
  unfold readValue at h
  split at h
  · rename_i rest hc
    obtain ⟨body, hrest, hb, hs⟩ := exists_readQuoted h
    exact ⟨'"' :: body ++ ['"'], by simpa [hc] using hrest, '"', body, .inl rfl, hb, rfl, hs⟩
  · rename_i rest hc
    obtain ⟨body, hrest, hb, hs⟩ := exists_readQuoted h
    exact ⟨'\'' :: body ++ ['\''], by simpa [hc] using hrest, '\'', body, .inr rfl, hb, rfl, hs⟩
  · cases h

theorem IsQuoted.stopsBy_blank {u : List Char} {text : String} (h : IsQuoted u text)
    (rest : List Char) : StopsBy isAsciiBlank (u ++ rest) := by
  obtain ⟨quote, body, rfl | rfl, -, rfl, -⟩ := h <;> simp <;> decide

/-- Blanks end a name, and so does a character that may follow them. -/
theorem stopsBy_gap {gap : List Char} (hg : IsGap gap) {x : Char} (hx : endsName x = true)
    (rest : List Char) : StopsBy (!endsName ·) (gap ++ x :: rest) := by
  cases gap with
  | nil => simp [hx]
  | cons y ys => simp [endsName, hg y List.mem_cons_self]

theorem IsAttribute.takes {u : List Char} {pair : String × String} (h : IsAttribute u pair) :
    Takes readAttribute u pair := by
  obtain ⟨key, gap, gap', value, hkey, hgap, hgap', hvalue, rfl, hpair⟩ := h
  intro pos rest
  have hname := readName_append pos hkey
    (stopsBy_gap hgap (x := '=') (by decide) (gap' ++ (value ++ rest)))
  have hblanks := skipBlanks_append (pos + byteSize key) ('=' :: (gap' ++ (value ++ rest))) hgap
    (by rw [stopsBy_cons]; decide)
  have hsign := passes_expect '=' (pos + byteSize key + byteSize gap) (gap' ++ (value ++ rest))
  have hblanks' := skipBlanks_append (pos + byteSize key + byteSize gap + byteSize ['=']) _ hgap'
    (hvalue.stopsBy_blank rest)
  have hread := hvalue.takes
    (pos + byteSize key + byteSize gap + byteSize ['='] + byteSize gap') rest
  rw [List.singleton_append] at hsign
  unfold readAttribute
  simp only [List.append_assoc, List.cons_append, hname, hblanks, hsign, hblanks', hread, ← hpair]
  simp only [byteSize_append, byteSize_cons, byteSize_nil, Nat.add_assoc, Nat.add_zero]

theorem exists_attribute {c c' : Cursor} {pair : String × String}
    (h : readAttribute c = .ok (pair, c')) : ∃ u, c.rest = u ++ c'.rest ∧ IsAttribute u pair := by
  unfold readAttribute at h
  split at h
  · cases h
  · rename_i key afterKey hn
    obtain ⟨u, hu, rfl, hname, -, -⟩ := exists_readName hn
    split at h
    · cases h
    · rename_i afterSign hs
      obtain ⟨gap, hgap, hisGap, -, -⟩ := exists_skipBlanks afterKey
      obtain ⟨hsign, -⟩ := exists_expect hs
      split at h
      · cases h
      · rename_i text after hv
        obtain ⟨gap', hgap', hisGap', -, -⟩ := exists_skipBlanks afterSign
        obtain ⟨value, hvalue, hquoted⟩ := exists_quoted hv
        cases h
        refine ⟨u ++ (gap ++ '=' :: (gap' ++ value)), ?_, u, gap, gap', value, hname, hisGap,
          hisGap', hquoted, rfl, rfl⟩
        rw [hu, hgap, hsign, hgap', hvalue]
        simp only [List.append_assoc, List.cons_append]

theorem IsAttribute.exists_cons {u : List Char} {pair : String × String} (h : IsAttribute u pair) :
    ∃ x xs, u = x :: xs ∧ endsName x = false := by
  obtain ⟨key, gap, gap', value, ⟨hne, hkey⟩, -, -, -, rfl, -⟩ := h
  cases key with
  | nil => exact absurd rfl hne
  | cons x xs => exact ⟨x, _, rfl, hkey x List.mem_cons_self⟩

/-! ## Tags -/

/-- The attributes of an opening tag with its end, and whether it closes itself. -/
inductive IsTagEnd : List Char → Attributes × Bool → Prop
  | opens {gap : List Char} (hg : IsGap gap) : IsTagEnd (gap ++ ['>']) ([], false)
  | closes {gap : List Char} (hg : IsGap gap) : IsTagEnd (gap ++ ['/', '>']) ([], true)
  | cons {gap u v : List Char} {pair : String × String} {pairs : Attributes} {b : Bool}
      (hg : IsGap gap) (ha : IsAttribute u pair) (hv : IsTagEnd v (pairs, b)) :
      IsTagEnd (gap ++ (u ++ v)) (pair :: pairs, b)

/-- An opening tag. -/
def IsOpenTag (u : List Char) (tag : Tag) : Prop :=
  ∃ key v, IsName key ∧ StopsBy (!endsName ·) v ∧ IsTagEnd v (tag.attributes, tag.closesItself) ∧
    u = '<' :: (key ++ v) ∧ tag.name = String.ofList key

/-- The closing tag of a name. -/
def IsCloseTag (u : List Char) (name : String) : Prop :=
  ∃ gap, IsGap gap ∧ IsName name.toList ∧ u = '<' :: '/' :: (name.toList ++ (gap ++ ['>']))

theorem IsTagEnd.bracket_mem {u : List Char} {r : Attributes × Bool} (h : IsTagEnd u r) :
    '>' ∈ u := by
  induction h with
  | opens => simp
  | closes => simp
  | cons _ _ _ ih => simp [ih]

/-- The end of a tag has a first character, whatever follows. -/
theorem IsTagEnd.stopsBy_append {u : List Char} {r : Attributes × Bool} (h : IsTagEnd u r)
    {p : Char → Bool} (rest : List Char) : StopsBy p (u ++ rest) ↔ StopsBy p u := by
  cases u with
  | nil => exact absurd h.bracket_mem (by simp)
  | cons x xs => simp

theorem readTagEnd_of_open {c : Cursor} {pos : Nat} {rest : List Char}
    (hc : c.skipBlanks = ⟨pos, '>' :: rest⟩) :
    readTagEnd c = .ok (([], false), ⟨pos + 1, rest⟩) := by
  rw [readTagEnd]
  split <;> simp_all

theorem readTagEnd_of_close {c : Cursor} {pos : Nat} {rest : List Char}
    (hc : c.skipBlanks = ⟨pos, '/' :: '>' :: rest⟩) :
    readTagEnd c = .ok (([], true), ⟨pos + 2, rest⟩) := by
  rw [readTagEnd]
  split <;> simp_all

/-- In front of an attribute, the reader of the rest of a tag reads it. -/
theorem readTagEnd_of_attribute {c after : Cursor} {pair : String × String}
    {r : Except Fault ((Attributes × Bool) × Cursor)} {x : Char} {xs : List Char}
    (hc : c.skipBlanks.rest = x :: xs) (hx : endsName x = false)
    (ha : readAttribute c.skipBlanks = .ok (pair, after)) (hr : readTagEnd after = r) :
    readTagEnd c = r.map fun found => ((pair :: found.1.1, found.1.2), found.2) := by
  rw [readTagEnd]
  split
  · rename_i hs
    rw [hs] at hc
    cases hc
    exact absurd hx (by decide)
  · rename_i hs
    rw [hs] at hc
    cases hc
    exact absurd hx (by decide)
  · rename_i hs
    rw [hs] at hc
    cases hc
  · split
    · rename_i hf
      rw [ha] at hf
      cases hf
    · rename_i hok
      rw [ha] at hok
      cases hok
      rw [hr]
      cases r <;> rfl

theorem IsTagEnd.takes {u : List Char} {r : Attributes × Bool} (h : IsTagEnd u r) :
    Takes readTagEnd u r := by
  induction h with
  | @opens gap hg =>
    intro pos rest
    have hblanks := skipBlanks_append pos ('>' :: rest) hg
      (by rw [stopsBy_cons]; decide)
    rw [List.append_assoc, List.singleton_append, readTagEnd_of_open hblanks, byteSize_append,
      ← Nat.add_assoc]
    rfl
  | @closes gap hg =>
    intro pos rest
    have hblanks := skipBlanks_append pos ('/' :: '>' :: rest) hg
      (by rw [stopsBy_cons]; decide)
    rw [List.append_assoc, List.cons_append, List.singleton_append, readTagEnd_of_close hblanks,
      byteSize_append, ← Nat.add_assoc]
    rfl
  | @cons gap u v pair pairs b hg ha hv ih =>
    intro pos rest
    obtain ⟨x, xs, rfl, hx⟩ := ha.exists_cons
    have hblanks := skipBlanks_append pos (x :: xs ++ (v ++ rest)) hg
      (by rw [List.cons_append, stopsBy_cons]; exact isAsciiBlank_of_not_endsName hx)
    have hread := ha.takes (pos + byteSize gap) (v ++ rest)
    simp only [List.append_assoc]
    rw [← hblanks] at hread
    rw [readTagEnd_of_attribute (by rw [hblanks]; rfl) hx hread (ih _ rest)]
    simp only [Except.map, byteSize_append, Nat.add_assoc]

theorem exists_tagEnd {c c' : Cursor} {r : Attributes × Bool} (h : readTagEnd c = .ok (r, c')) :
    ∃ u, c.rest = u ++ c'.rest ∧ IsTagEnd u r := by
  fun_induction readTagEnd c generalizing r with
  | case1 c pos rest hc =>
    obtain ⟨gap, hgap, hg, -, -⟩ := exists_skipBlanks c
    rw [hc] at hgap
    cases h
    exact ⟨gap ++ ['/', '>'], by rw [hgap, List.append_assoc]; rfl, .closes hg⟩
  | case2 c pos rest hc =>
    obtain ⟨gap, hgap, hg, -, -⟩ := exists_skipBlanks c
    rw [hc] at hgap
    cases h
    exact ⟨gap ++ ['>'], by rw [hgap, List.append_assoc]; rfl, .opens hg⟩
  | case3 => cases h
  | case4 => cases h
  | case5 => cases h
  | case6 c pair after pairs closesItself c'' hrec _ _ _ ha ih =>
    obtain ⟨gap, hgap, hg, -, -⟩ := exists_skipBlanks c
    obtain ⟨u, hu, hattribute⟩ := exists_attribute ha
    cases h
    obtain ⟨v, hv, hend⟩ := ih hrec
    refine ⟨gap ++ (u ++ v), ?_, .cons hg hattribute hend⟩
    rw [hgap, hu, hv, List.append_assoc, List.append_assoc]

theorem IsOpenTag.takes {u : List Char} {tag : Tag} (h : IsOpenTag u tag) :
    Takes readOpenTag u tag := by
  obtain ⟨key, v, hkey, hstop, hend, rfl, hname⟩ := h
  intro pos rest
  have hbracket := passes_expect '<' pos (key ++ (v ++ rest))
  have hread := readName_append (pos + byteSize ['<']) hkey ((hend.stopsBy_append rest).2 hstop)
  have htail := hend.takes (pos + byteSize ['<'] + byteSize key) rest
  rw [List.singleton_append] at hbracket
  unfold readOpenTag
  simp only [List.append_assoc, List.cons_append, hbracket, hread, htail, ← hname]
  simp only [byteSize_append, byteSize_cons, byteSize_nil, Nat.add_assoc, Nat.add_zero]

theorem exists_openTag {c c' : Cursor} {tag : Tag} (h : readOpenTag c = .ok (tag, c')) :
    ∃ u, c.rest = u ++ c'.rest ∧ IsOpenTag u tag := by
  unfold readOpenTag at h
  split at h
  · cases h
  · rename_i afterBracket hb
    obtain ⟨hbracket, -⟩ := exists_expect hb
    split at h
    · cases h
    · rename_i tagName afterName hn
      obtain ⟨key, hkey, rfl, hname, hstop, -⟩ := exists_readName hn
      split at h
      · cases h
      · rename_i attributes closesItself after ht
        obtain ⟨v, hv, hend⟩ := exists_tagEnd ht
        cases h
        rw [hv, hend.stopsBy_append] at hstop
        refine ⟨'<' :: (key ++ v), ?_, key, v, hname, hstop, hend, rfl, rfl⟩
        rw [hbracket, hkey, hv, List.cons_append, List.append_assoc]

theorem IsOpenTag.bracket_mem {u : List Char} {tag : Tag} (h : IsOpenTag u tag) : '>' ∈ u := by
  obtain ⟨key, v, -, -, hend, rfl, -⟩ := h
  simp [hend.bracket_mem]

theorem IsCloseTag.passes {u : List Char} {name : String} (h : IsCloseTag u name) :
    Passes (readCloseTag name) u := by
  obtain ⟨gap, hg, hname, rfl⟩ := h
  intro pos rest
  have hread := readName_append (pos + 2) hname (stopsBy_gap hg (x := '>') (by decide) rest)
  have hblanks := skipBlanks_append (pos + 2 + byteSize name.toList) ('>' :: rest) hg
    (by rw [stopsBy_cons]; decide)
  have hbracket := passes_expect '>' (pos + 2 + byteSize name.toList + byteSize gap) rest
  rw [List.singleton_append] at hbracket
  unfold readCloseTag
  simp only [List.cons_append, List.append_assoc, List.drop_succ_cons, List.drop_zero,
    List.nil_append, hread, String.ofList_toList, if_true, hblanks, hbracket]
  simp only [byteSize_cons, byteSize_append, byteSize_nil]
  simp only [show '<'.utf8Size = 1 from rfl, show '/'.utf8Size = 1 from rfl]
  congr 2
  omega

theorem exists_closeTag {name : String} {pos : Nat} {rest : List Char} {c' : Cursor}
    (h : readCloseTag name ⟨pos, '<' :: '/' :: rest⟩ = .ok c') :
    ∃ u, '<' :: '/' :: rest = u ++ c'.rest ∧ IsCloseTag u name := by
  unfold readCloseTag at h
  split at h
  · cases h
  · rename_i closing afterName hn
    obtain ⟨u, hu, rfl, hname, -, -⟩ := exists_readName hn
    simp only [List.drop_succ_cons, List.drop_zero] at hu
    split at h
    · rename_i hw
      subst hw
      obtain ⟨gap, hgap, hg, -, -⟩ := exists_skipBlanks afterName
      obtain ⟨hbracket, -⟩ := exists_expect h
      refine ⟨'<' :: '/' :: (u ++ (gap ++ ['>'])), ?_, gap, hg, ?_, ?_⟩
      · rw [hu, hgap, hbracket]
        simp
      · simpa using hname
      · simp
    · cases h

/-! ## Comments -/

/-- A text that ends with the first occurrence of a pattern in it. -/
def EndsFirst (pattern u : List Char) : Prop :=
  ∃ before, u = before ++ pattern ∧ cutPattern? pattern u = some (before, [])

theorem EndsFirst.mem {pattern u : List Char} (h : EndsFirst pattern u) {x : Char}
    (hx : x ∈ pattern) : x ∈ u := by
  obtain ⟨before, rfl, -⟩ := h
  exact List.mem_append_right before hx

/-- What follows the first occurrence of a pattern makes no earlier one. -/
theorem cutPattern?_append_of_eq_some {pattern cs before after : List Char}
    (h : cutPattern? pattern cs = some (before, after)) (rest : List Char) :
    cutPattern? pattern (before ++ (pattern ++ rest)) = some (before, rest) := by
  induction cs generalizing before with
  | nil =>
    obtain ⟨_, -, hb⟩ := Option.map_eq_some_iff.1 h
    cases hb
    exact cutPattern?_append pattern rest
  | cons c cs ih =>
    have hall := cutPattern?_eq_some h
    simp only [cutPattern?] at h
    split at h
    · cases h
      exact cutPattern?_append pattern rest
    · rename_i hnone
      obtain ⟨parts, hp, hb⟩ := Option.map_eq_some_iff.1 h
      cases hb
      have hdrop : dropPattern? pattern (c :: (parts.1 ++ (pattern ++ rest))) = none := by
        rw [Option.eq_none_iff_forall_ne_some]
        intro x hx
        -- The pattern would lie within `c`, `parts.1` and itself, so it would be at the front of `cs`.
        have hprefix : pattern <+: c :: (parts.1 ++ pattern) := by
          have hfront : pattern <+: c :: (parts.1 ++ (pattern ++ rest)) :=
            ⟨x, (dropPattern?_eq_some.1 hx).symm⟩
          refine List.prefix_of_prefix_length_le hfront ⟨rest, by simp⟩ ?_
          simp only [List.length_cons, List.length_append]
          omega
        obtain ⟨y, hy⟩ := hprefix
        have : dropPattern? pattern (c :: cs) = some (y ++ parts.2) := by
          rw [dropPattern?_eq_some, hall, ← List.append_assoc, hy]
          simp
        rw [hnone] at this
        cases this
      simp only [List.cons_append, cutPattern?, hdrop, ih hp, Option.map_some]

theorem passes_readPast {ending : String} {u : List Char} (h : EndsFirst ending.toList u) :
    Passes (readPast ending) u := by
  obtain ⟨before, rfl, hcut⟩ := h
  intro pos rest
  have := cutPattern?_append_of_eq_some hcut rest
  simp only [readPast, Cursor.past?, List.append_assoc, this, Option.map_some, byteSize_append,
    Nat.add_assoc]

theorem exists_readPast {ending : String} {c c' : Cursor} (h : readPast ending c = .ok c') :
    ∃ u, c.rest = u ++ c'.rest ∧ EndsFirst ending.toList u := by
  unfold readPast at h
  split at h
  · rename_i after hp
    obtain ⟨parts, hparts, rfl⟩ := Option.map_eq_some_iff.1 hp
    cases h
    refine ⟨parts.1 ++ ending.toList, cutPattern?_eq_some hparts, parts.1, rfl, ?_⟩
    simpa using cutPattern?_append_of_eq_some hparts []
  · cases h

end Lockstep.Markup
