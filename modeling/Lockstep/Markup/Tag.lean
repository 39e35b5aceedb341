import Lockstep.Markup.Cursor
import Lockstep.Markup.Entity

/- Tags.

   1. A name runs up to a blank or one of `/`, `>`, `=`, `<`. An attribute is a name, an equals sign
      and a quoted text, with blanks between them.
   2. `readOpenTag` reads an opening tag, which may close itself; `readCloseTag` reads the closing tag of a
      given name.
   3. `skipMisc` passes blanks, comments and declarations. A comment ends at the first `-->` found
      from its own first character on, so that `<!-->` is a whole comment.
   4. Each of them leaves less text than it was given (`length_readOpenTag_lt` and its like), which is
      why the parser ends. -/
namespace Lockstep.Markup
open Text

/-- The characters that end a name. -/
def endsName (c : Char) : Bool :=
  isAsciiBlank c || c = '/' || c = '>' || c = '=' || c = '<'

/-- A name, which is not empty. -/
def readName (c : Cursor) : Except Fault (String × Cursor) :=
  match c.rest.takeWhile (!endsName ·) with
  | [] => .error (c.fault .expectedName)
  | cs => .ok (String.ofList cs, c.skipWhile (!endsName ·))

/-- One given character. -/
def expect (wanted : Char) (c : Cursor) : Except Fault Cursor :=
  match c.rest with
  | [] => .error (c.fault (.expected wanted))
  | first :: rest =>
    if first = wanted then .ok ⟨c.pos + first.utf8Size, rest⟩
    else .error (c.fault (.expected wanted))

/-- What stands up to the closing quote, with its entities read. -/
def readQuoted (quote : Char) (c : Cursor) : Except Fault (String × Cursor) :=
  match (c.skipWhile (· ≠ quote)).rest with
  | [] => .error ((c.skipWhile (· ≠ quote)).fault .unterminatedValue)
  | close :: rest =>
    .ok (String.ofList (unescape (c.rest.takeWhile (· ≠ quote))),
      ⟨(c.skipWhile (· ≠ quote)).pos + close.utf8Size, rest⟩)

/-- A text between quotes of either sort. -/
def readValue (c : Cursor) : Except Fault (String × Cursor) :=
  match c.rest with
  | '"' :: rest => readQuoted '"' ⟨c.pos + 1, rest⟩
  | '\'' :: rest => readQuoted '\'' ⟨c.pos + 1, rest⟩
  | _ => .error (c.fault .expectedQuote)

/-- A key, an equals sign and a text. -/
def readAttribute (c : Cursor) : Except Fault ((String × String) × Cursor) :=
  match readName c with
  | .error f => .error f
  | .ok (key, afterKey) =>
    match expect '=' afterKey.skipBlanks with
    | .error f => .error f
    | .ok afterSign =>
      match readValue afterSign.skipBlanks with
      | .error f => .error f
      | .ok (text, after) => .ok ((key, text), after)

/-! ## What is left is shorter -/

theorem length_readName_lt {c c' : Cursor} {s : String} (h : readName c = .ok (s, c')) :
    c'.rest.length < c.rest.length := by
  unfold readName at h
  split at h
  · cases h
  · rename_i hne
    cases h
    have := congrArg List.length
      (List.takeWhile_append_dropWhile (p := (!endsName ·)) (l := c.rest))
    have := List.length_pos_iff.2 hne
    simp only [List.length_append] at *
    show (c.rest.dropWhile _).length < _
    omega

theorem length_expect_lt {wanted : Char} {c c' : Cursor} (h : expect wanted c = .ok c') :
    c'.rest.length < c.rest.length := by
  unfold expect at h
  split at h
  · cases h
  · rename_i hc
    split at h <;> cases h
    simp [hc]

theorem length_readQuoted_lt {quote : Char} {c c' : Cursor} {s : String}
    (h : readQuoted quote c = .ok (s, c')) : c'.rest.length < c.rest.length := by
  unfold readQuoted at h
  split at h
  · cases h
  · rename_i hc
    cases h
    have := Cursor.length_skipWhile_le (· ≠ quote) c
    rw [hc, List.length_cons] at this
    exact this

theorem length_readValue_lt {c c' : Cursor} {s : String}
    (h : readValue c = .ok (s, c')) : c'.rest.length < c.rest.length := by
  unfold readValue at h
  split at h
  · rename_i hc
    have := length_readQuoted_lt h
    simp only [hc, List.length_cons] at *
    omega
  · rename_i hc
    have := length_readQuoted_lt h
    simp only [hc, List.length_cons] at *
    omega
  · cases h

theorem length_readAttribute_lt {c c' : Cursor} {pair : String × String}
    (h : readAttribute c = .ok (pair, c')) : c'.rest.length < c.rest.length := by
  unfold readAttribute at h
  split at h
  · cases h
  · rename_i hn
    split at h
    · cases h
    · rename_i hs
      split at h
      · cases h
      · rename_i hv
        cases h
        have h1 := length_readName_lt hn
        have h2 := length_expect_lt hs
        have h3 := length_readValue_lt hv
        have h4 := Cursor.length_skipWhile_le isAsciiBlank
        exact Nat.lt_of_lt_of_le h3 <| Nat.le_trans (h4 _) <| Nat.le_trans (Nat.le_of_lt h2) <|
          Nat.le_trans (h4 _) (Nat.le_of_lt h1)

theorem length_skipBlanks_le (c : Cursor) : c.skipBlanks.rest.length ≤ c.rest.length :=
  Cursor.length_skipWhile_le isAsciiBlank c

/-! ## Tags -/

/-- An opening tag. -/
structure Tag where
  name : String
  attributes : Attributes
  closesItself : Bool
deriving DecidableEq, Repr

/-- The attributes of a tag and its end; the flag tells whether it closes itself. -/
def readTagEnd (c : Cursor) : Except Fault ((Attributes × Bool) × Cursor) :=
  match hc : c.skipBlanks with
  | ⟨pos, '/' :: '>' :: rest⟩ => .ok (([], true), ⟨pos + 2, rest⟩)
  | ⟨pos, '>' :: rest⟩ => .ok (([], false), ⟨pos + 1, rest⟩)
  | ⟨pos, []⟩ => .error ⟨pos, .unterminatedTag⟩
  | here =>
    match _ha : readAttribute here with
    | .error f => .error f
    | .ok (pair, after) =>
      match readTagEnd after with
      | .error f => .error f
      | .ok ((pairs, closesItself), c') => .ok ((pair :: pairs, closesItself), c')
termination_by c.rest.length
decreasing_by
  have h1 := length_readAttribute_lt _ha
  have h2 := length_skipBlanks_le c
  simp_all
  omega

theorem length_readTagEnd_lt {c c' : Cursor} {r : Attributes × Bool}
    (h : readTagEnd c = .ok (r, c')) : c'.rest.length < c.rest.length := by
  fun_induction readTagEnd c generalizing r with
  | case1 c pos rest hc =>
    have := length_skipBlanks_le c
    rw [hc] at this
    cases h
    simp only [List.length_cons] at this
    show rest.length < _
    omega
  | case2 c pos rest hc =>
    have := length_skipBlanks_le c
    rw [hc] at this
    cases h
    simp only [List.length_cons] at this
    show rest.length < _
    omega
  | case3 => cases h
  | case4 => cases h
  | case5 => cases h
  | case6 c pair after pairs closesItself c'' hrec _ _ _ ha ih =>
    cases h
    have h1 := ih hrec
    have h2 := length_readAttribute_lt ha
    have h3 := length_skipBlanks_le c
    omega

/-- An opening tag. -/
def readOpenTag (c : Cursor) : Except Fault (Tag × Cursor) :=
  match expect '<' c with
  | .error f => .error f
  | .ok afterBracket =>
    match readName afterBracket with
    | .error f => .error f
    | .ok (tagName, afterName) =>
      match readTagEnd afterName with
      | .error f => .error f
      | .ok ((attributes, closesItself), after) =>
        .ok (⟨tagName, attributes, closesItself⟩, after)

theorem length_readOpenTag_lt {c c' : Cursor} {tag : Tag} (h : readOpenTag c = .ok (tag, c')) :
    c'.rest.length < c.rest.length := by
  unfold readOpenTag at h
  split at h
  · cases h
  · rename_i hb
    split at h
    · cases h
    · rename_i hn
      split at h
      · cases h
      · rename_i ht
        cases h
        have h1 := length_expect_lt hb
        have h2 := length_readName_lt hn
        have h3 := length_readTagEnd_lt ht
        omega

/-- The closing tag of a given name; the cursor stands before its `</`. -/
def readCloseTag (wanted : String) (c : Cursor) : Except Fault Cursor :=
  match readName ⟨c.pos + 2, c.rest.drop 2⟩ with
  | .error f => .error f
  | .ok (closing, afterName) =>
    if closing = wanted then expect '>' afterName.skipBlanks
    else .error (afterName.fault (.mismatched closing wanted))

theorem length_readCloseTag_lt {wanted : String} {c c' : Cursor}
    (h : readCloseTag wanted c = .ok c') : c'.rest.length < c.rest.length := by
  unfold readCloseTag at h
  split at h
  · cases h
  · rename_i afterName hn
    split at h
    · have h1 := length_readName_lt hn
      have h2 := length_expect_lt h
      have h3 := length_skipBlanks_le afterName
      simp only [List.length_drop] at h1
      omega
    · cases h

/-! ## Between elements -/

/-- The place after a construct that starts here and ends with `ending`. -/
def readPast (ending : String) (c : Cursor) : Except Fault Cursor :=
  match c.past? ending.toList with
  | some after => .ok after
  | none => .error (c.fault .unterminatedConstruct)

theorem length_readPast_lt {ending : String} (he : ending.toList ≠ []) {c c' : Cursor}
    (h : readPast ending c = .ok c') : c'.rest.length < c.rest.length := by
  unfold readPast at h
  split at h
  · rename_i hp
    cases h
    exact Cursor.length_past?_lt hp he
  · cases h

/-- The place after blanks, comments and declarations. -/
def skipMisc (c : Cursor) : Except Fault Cursor :=
  match _hc : c.skipBlanks with
  | ⟨pos, '<' :: '!' :: '-' :: '-' :: rest⟩ =>
    match _hp : readPast "-->" ⟨pos, '<' :: '!' :: '-' :: '-' :: rest⟩ with
    | .error f => .error f
    | .ok after => skipMisc after
  | ⟨pos, '<' :: '?' :: rest⟩ =>
    match _hp : readPast "?>" ⟨pos, '<' :: '?' :: rest⟩ with
    | .error f => .error f
    | .ok after => skipMisc after
  | here => .ok here
termination_by c.rest.length
decreasing_by
  all_goals
    have h1 := length_readPast_lt (by decide) _hp
    have h2 := length_skipBlanks_le c
    rw [_hc] at h2
    exact Nat.lt_of_lt_of_le h1 h2

end Lockstep.Markup
