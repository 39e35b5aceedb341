import Lockstep.Proofs.Markup.Descent
import Lockstep.Proofs.Markup.Spans
import Lockstep.Proofs.Text.Span
import Lockstep.Queue.Bytewise

/- Queues over bytes are queues over characters.

   1. A pattern is found at the offset of the place where it stands (`find?_of_some`). The three slices of the
      header are the texts between what was found there (`headerAt_eq`).
   2. At the tag of an item there is nothing to skip, so the element at that offset is the one that is read
      there (`parseAt_of_item`). The slice of its body is the body (`slice_body`).
   3. So a round of the search finds what `scan` finds, and leads to a later place (`itemLoop_eq`). Every text
      is read alike, and no slice and no loop is a trap (`parse_eq`). -/
namespace Lockstep.Queue.Bytewise
open Text Markup Markup.Bytewise

variable {text : String} {c here after : Cursor}

/-! ## Headers -/

theorem find?_singleton (sep : Char) (cs : List Char) :
    find? [sep] cs = (cutFirst? sep cs).map fun parts => byteSize parts.1 := by
  rw [find?, cutPattern?_eq_cutFirst?]

/-- The number is cut out of a header as it stands between what was found. -/
theorem headerAt_eq (text : String) : headerAt text = needed (header? text) := by
  unfold headerAt header?
  generalize countKey ++ ['=', '"'] = key
  simp only [find?_singleton]
  cases dropPattern? ('<' :: queueTag) (text.toList.dropWhile isBlank) with
  | none => rfl
  | some rest =>
    simp only [needed, bind, Except.bind]
    cases hheader : cutFirst? '>' rest with
    | none => rfl
    | some parts =>
      obtain ⟨header, tail⟩ := parts
      have hslice := slice_front (ε := Error) header ('>' :: tail)
      rw [← cutFirst?_eq_some hheader] at hslice
      simp only [Option.map_some, hslice]
      cases hkey : cutPattern? key header with
      | none =>
        rw [find?, hkey]
        rfl
      | some parts =>
        obtain ⟨before, value⟩ := parts
        have hvalue := sliceFrom_append (ε := Error) (before ++ key) value
        rw [← cutPattern?_eq_some hkey, byteSize_append] at hvalue
        simp only [find?, hkey, Option.map_some, hvalue]
        cases hcount : cutFirst? '"' value with
        | none => rfl
        | some parts =>
          obtain ⟨count, behind⟩ := parts
          have hslice := Markup.Bytewise.slice_append (ε := Error) (before ++ key) count ('"' :: behind)
          rw [← cutFirst?_eq_some hcount, ← cutPattern?_eq_some hkey, byteSize_append] at hslice
          simp only [Option.map_some, hslice]

/-! ## Items -/

theorem find?_of_none {pattern : List Char} (h : c.find? pattern = none) :
    find? pattern c.rest = none := by
  rw [find?, Option.map_eq_none_iff]
  exact Option.map_eq_none_iff.1 h

/-- A pattern is found at the offset of the place where it stands. -/
theorem find?_of_some {src pattern : List Char} (hc : c.In src) (h : c.find? pattern = some here) :
    ∃ before, find? pattern c.rest = some before ∧ c.pos + before = here.pos ∧ here.In src ∧
      ∃ rest, here.rest = pattern ++ rest := by
  obtain ⟨parts, hparts, rfl⟩ := Option.map_eq_some_iff.1 h
  refine ⟨byteSize parts.1, ?_, rfl, ?_, parts.2, rfl⟩
  · rw [find?, hparts, Option.map_some]
  · apply hc.forward _ rfl
    rw [cutPattern?_eq_some hparts, List.append_assoc]

theorem standing_item (rest : List Char) : Standing ('<' :: itemTag ++ rest) := by
  refine ⟨(stopsBy_cons ..).2 (by decide), fun h => ?_, fun h => ?_⟩
  · have hopening : upcoming ('<' :: itemTag ++ rest) = .opening := rfl
    rw [hopening] at h
    cases h
  · obtain ⟨tail, htail⟩ := h
    cases htail

/-- Nothing is skipped in front of the tag of an item. -/
theorem parseAt_of_item (hin : here.In text.toList) {rest : List Char}
    (hrest : here.rest = '<' :: itemTag ++ rest) : Markup.parseAt text here.pos = readElement here := by
  have hmisc : Markup.skipMisc here = .ok here := by
    have hblanks : here.skipBlanks = ⟨here.pos, '<' :: itemTag ++ rest⟩ := by
      rw [Cursor.skipBlanks, Cursor.skipWhile, hrest]
      rfl
    have hskip := skipMisc_of_standing hblanks (standing_item rest)
    rwa [← hrest] at hskip
  simp only [Markup.parseAt, hin.forward?_start, readNext, hmisc, hrest]
  rfl

/-- The slice of a body is the body. -/
theorem slice_body {src : List Char} (hin : here.In src) {e : Element}
    (hread : readElement here = .ok (e, after)) :
    slice src e.bodyStart e.bodyEnd =
      (.ok (here.slice e.bodyStart e.bodyEnd) : Checked Error (List Char)) := by
  obtain ⟨u, hu, helement, -⟩ := exists_element hread
  obtain ⟨front, body, back, rfl, hstart, hend⟩ := helement.exists_body
  simp only [List.append_assoc] at hu
  have hbody : Cursor.In src ⟨here.pos + byteSize front, body ++ (back ++ after.rest)⟩ :=
    hin.forward hu rfl
  have hsame := Markup.slice_append here.pos front body (back ++ after.rest)
  rw [← hu] at hsame
  rw [hstart, hend, hsame]
  exact slice_eq hbody rfl

/-- What comes of a round that found an item or some other element. -/
theorem itemRound_of_find? (hc : c.In text.toList) (hf : c.find? ('<' :: itemTag) = some here)
    (q : Queue) (count : Nat) :
    itemRound text ((q, count), c.pos) =
      match readElement here with
      | .error _ => .ok (.done (q, count))
      | .ok (e, after) =>
        if e.name.toList = itemTag then
          match Stamp.ofText? ((e.attribute? (String.ofList stampKey)).getD "") with
          | none => .error (.error (.invalidStamp ((e.attribute? (String.ofList stampKey)).getD "")))
          | some stamp =>
            match q.place stamp (.written (String.ofList (here.slice e.bodyStart e.bodyEnd))) with
            | .error e => .error (.error e)
            | .ok (_, q) => .ok (.again ((q, count + 1), after.pos))
        else .ok (.again ((q, count), after.pos)) := by
  obtain ⟨before, hfind, hpos, hin, rest, hrest⟩ := find?_of_some hc hf
  have hparse := parseAt_agrees text here.pos
  rw [parseAt_of_item hin hrest] at hparse
  simp only [itemRound, bind, Except.bind, sliceFrom_eq hc, hfind, hpos]
  cases hread : readElement here with
  | error f =>
    rw [hparse.eq_error hread]
    rfl
  | ok found =>
    obtain ⟨e, after⟩ := found
    rw [(hparse.eq_ok hread).1]
    simp only [slice_body hin hread]
    split
    · cases Stamp.ofText? ((e.attribute? (String.ofList stampKey)).getD "") with
      | none => rfl
      | some stamp =>
        cases q.place stamp (.written (String.ofList (here.slice e.bodyStart e.bodyEnd))) <;> rfl
    · rfl

/-- A queue with the items that were found, and how many these and those before them are. -/
def withItems (q : Queue) (count : Nat) (found : List (Stamp × String) × Option Error) :
    Except Error (Queue × Nat) :=
  match q.placeAll (found.1.map fun item => (item.1, .written item.2)) with
  | .error e => .error e
  | .ok q' =>
    match found.2 with
    | some e => .error e
    | none => .ok (q', count + found.1.length)

/-- Placing the items one by one as they are found is placing them all. -/
theorem withItems_cons (q : Queue) (count : Nat) (stamp : Stamp) (body : String)
    (items : List (Stamp × String)) (problem : Option Error) :
    withItems q count ((stamp, body) :: items, problem) =
      match q.place stamp (.written body) with
      | .error e => .error e
      | .ok (_, q') => withItems q' (count + 1) (items, problem) := by
  rw [withItems, List.map_cons, placeAll]
  cases q.place stamp (.written body) with
  | error e => rfl
  | ok placed => simp only [withItems, List.length_cons, Nat.add_right_comm, Nat.add_assoc]

/-- A round that found an element leads to the place behind it. -/
theorem itemLoop_again (hc : c.In text.toList) (hf : c.find? ('<' :: itemTag) = some here) {e : Element}
    (hread : readElement here = .ok (e, after)) {q q' : Queue} {count count' : Nat}
    (hround : itemRound text ((q, count), c.pos) = .ok (.again ((q', count'), after.pos))) :
    after.In text.toList ∧ iterate (byteSize text.toList) Prod.snd (itemRound text) ((q, count), c.pos) =
      iterate (byteSize text.toList) Prod.snd (itemRound text) ((q', count'), after.pos) := by
  obtain ⟨before, hfind, hpos, hin, hrest⟩ := find?_of_some hc hf
  have hafter := ((elementAt_agrees hin).eq_ok hread).2
  have hlt := Nat.lt_of_lt_of_le (length_readElement_lt hread) (Cursor.length_find?_le hf)
  exact ⟨hafter, iterate_again hround (hc.pos_lt hafter hlt) hafter.pos_le⟩

/-- The search places what a scan finds. -/
theorem itemLoop_eq (hc : c.In text.toList) (q : Queue) (count : Nat) :
    iterate (byteSize text.toList) Prod.snd (itemRound text) ((q, count), c.pos) =
      (withItems q count (scan c)).mapError .error := by
  fun_induction scan c generalizing q count with
  | case1 c hf =>
    apply iterate_done
    simp only [itemRound, bind, Except.bind, sliceFrom_eq hc, find?_of_none hf]
    rfl
  | case2 c here hf f hread =>
    have hround := itemRound_of_find? hc hf q count
    rw [hread] at hround
    exact iterate_done hround
  | case3 c here hf e after hread hname stampText hstamp =>
    have hround := itemRound_of_find? hc hf q count
    simp only [hread, if_pos hname] at hround
    rw [hstamp] at hround
    exact iterate_error hround
  | case4 c here hf e after hread hname stampText stamp hstamp items problem hscan ih =>
    have hround := itemRound_of_find? hc hf q count
    simp only [hread, if_pos hname] at hround
    rw [hstamp] at hround
    dsimp only at hround
    rw [withItems_cons]
    cases hplace : q.place stamp (.written (String.ofList (here.slice e.bodyStart e.bodyEnd))) with
    | error problem =>
      rw [hplace] at hround
      exact iterate_error hround
    | ok placed =>
      obtain ⟨got, q'⟩ := placed
      rw [hplace] at hround
      obtain ⟨hafter, hloop⟩ := itemLoop_again hc hf hread hround
      rw [hloop, ih hafter, hscan]
  | case5 c here hf e after hread hname ih =>
    have hround := itemRound_of_find? hc hf q count
    simp only [hread, if_neg hname] at hround
    obtain ⟨hafter, hloop⟩ := itemLoop_again hc hf hread hround
    rw [hloop, ih hafter]

/-! ## Texts -/

/-- Behind the header, a text is read as its items are placed and counted. -/
theorem parse_of_past? (hblank : isBlankText text = false) {expected : Nat}
    (hheader : header? text = some expected) (hpast : (Cursor.start text).past? ['>'] = some c) :
    Queue.parse text = withItems empty 0 (scan c) >>= fun placed =>
      if placed.2 = expected then .ok placed.1 else .error (.corrupted expected placed.2) := by
  simp only [Queue.parse, hblank, hheader, hpast, Bool.false_eq_true, if_false, withItems]
  cases empty.placeAll ((scan c).1.map fun item => (item.1, .written item.2)) with
  | error e => rfl
  | ok q =>
    cases (scan c).2 with
    | some e => rfl
    | none => simp only [bind, Except.bind, Nat.zero_add]

/-- Whatever the text, its queue is read without a trap. -/
theorem parse_eq (text : String) : parse text = (Queue.parse text).mapError .error := by
  cases hblank : isBlankText text with
  | true =>
    simp only [parse, Queue.parse, hblank, if_true]
    rfl
  | false =>
    simp only [parse, hblank, Bool.false_eq_true, if_false, headerAt_eq]
    cases hheader : header? text with
    | none =>
      simp only [Queue.parse, hblank, hheader]
      rfl
    | some expected =>
      simp only [needed, bind, Except.bind, find?]
      cases hcut : cutPattern? ['>'] text.toList with
      | none =>
        have hpast : (Cursor.start text).past? ['>'] = none := Option.map_eq_none_iff.2 hcut
        simp only [Queue.parse, hblank, hheader, hpast]
        rfl
      | some parts =>
        have hpast : (Cursor.start text).past? ['>'] = some ⟨0 + byteSize parts.1 + 1, parts.2⟩ :=
          Option.map_eq_some_iff.2 ⟨parts, hcut, rfl⟩
        have hin : Cursor.In text.toList ⟨0 + byteSize parts.1 + 1, parts.2⟩ := by
          refine (Cursor.In.start text).forward (u := parts.1 ++ ['>']) (cutPattern?_eq_some hcut) ?_
          rw [byteSize_append, ← Nat.add_assoc]
          rfl
        have hloop := itemLoop_eq hin empty 0
        rw [Nat.zero_add] at hloop
        rw [parse_of_past? hblank hheader hpast]
        simp only [Option.map_some, hloop, Nat.zero_add]
        cases withItems empty 0 (scan ⟨byteSize parts.1 + 1, parts.2⟩) with
        | error e => rfl
        | ok placed =>
          show (if placed.2 = expected then Except.ok placed.1 else _) =
            (if placed.2 = expected then _ else _ : Except Error Queue).mapError Stop.error
          split <;> rfl

/-- What is read of a text stays within it. At any offset, an element that is read ends behind the offset and
    within the text; the bodies in it lie between the two, at boundaries, each within its parent's and behind
    those of the children before it, and they are nested no deeper than may be. From within a character nothing
    is read. Over bytes, where a slice that is none and a loop that stands still are traps, an element at an
    offset, all elements and the queue of a text are what they are over characters, or the same errors. -/
theorem reads_within_text (text : String) :
    (∀ offset,
      (∀ e after, Markup.parseAt text offset = .ok (e, after) →
        offset < after.pos ∧ after.pos ≤ text.utf8ByteSize ∧
          e.Within text.toList offset after.pos ∧ e.height ≤ maxDepth) ∧
      (offset < text.utf8ByteSize → ¬ IsBoundary text.toList offset →
        Markup.parseAt text offset = .error ⟨offset, .notABoundary⟩) ∧
      Markup.Bytewise.parseAt text offset =
        ((Markup.parseAt text offset).map fun found => (found.1, found.2.pos)).mapError .error) ∧
      Markup.Bytewise.parseAll text = (Markup.parseAll text).mapError .error ∧
      Queue.Bytewise.parse text = (Queue.parse text).mapError .error := by
  rw [← byteSize_toList]
  refine ⟨fun offset => ⟨?_, ?_, parseAt_eq text offset⟩, parseAll_eq text, parse_eq text⟩
  · intro e after h
    exact within_of_parseAt h
  · intro hlt h
    exact parseAt_of_not_isBoundary hlt h

end Lockstep.Queue.Bytewise
