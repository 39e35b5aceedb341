import Lockstep.Markup.Tag
import Lockstep.Proofs.Text.Span
import Lockstep.Registry.Path

/- Names read back.

   1. No character of a segment is a blank, a slash or one that ends a name in markup
      (`plain_of_continuesSegment`); below U+0080 this is checked one by one, from there on by the
      tables of letters, numbers and blanks being disjoint.
   2. So the absolute name of a path reads as that path in every namespace (`ofName_text`), the text
      of a namespace reads as its path (`ofScope_scopeText`), and a single segment reads as the entry
      right below the namespace (`ofName_segment`). -/
namespace Lockstep

namespace Text

/-- Ranges with no code point in common. -/
def Disjoint (a b : List (Nat × Nat)) : Prop := ∀ r ∈ a, ∀ s ∈ b, r.2 < s.1 ∨ s.2 < r.1

instance (a b : List (Nat × Nat)) : Decidable (Disjoint a b) :=
  inferInstanceAs (Decidable (∀ r ∈ a, ∀ s ∈ b, r.2 < s.1 ∨ s.2 < r.1))

theorem inRanges_of_disjoint {a b : List (Nat × Nat)} (h : Disjoint a b) {c : Char}
    (hc : inRanges b c = true) : inRanges a c = false := by
  obtain ⟨s, hs, hsc⟩ := List.any_eq_true.1 hc
  refine List.any_eq_false.2 fun r hr hrc => ?_
  have hrs := h r hr s hs
  simp only [Bool.and_eq_true, decide_eq_true_eq] at hsc hrc
  omega

theorem disjoint_letters : Disjoint blankRanges letterRanges := by decide +kernel

theorem disjoint_numbers : Disjoint blankRanges numberRanges := by decide +kernel

/-- A letter or a number is no blank. -/
theorem isBlank_of_isLetterOrNumber {c : Char} (hlarge : ¬ c.toNat < 128)
    (h : isLetterOrNumber c = true) : isBlank c = false := by
  rw [isLetterOrNumber, if_neg hlarge, Bool.or_eq_true] at h
  rcases h with h | h
  · exact inRanges_of_disjoint disjoint_letters h
  · exact inRanges_of_disjoint disjoint_numbers h

end Text

namespace Registry
open Text Markup

/-! ## Characters of segments -/

/-- A character with no meaning around names: no blank, no slash, and nothing that ends a name. -/
def isPlain (c : Char) : Bool := !isBlank c && !endsName c

theorem plain_below : ∀ n < 128, continuesSegment (Char.ofNat n) = true →
    isPlain (Char.ofNat n) = true := by decide +kernel

theorem continuesSegment_of_startsSegment {c : Char} (h : startsSegment c = true) :
    continuesSegment c = true := by
  rw [startsSegment, Bool.or_eq_true] at h
  rcases h with h | h
  · simp [continuesSegment, isLetterOrNumber_of_isLetter h]
  · simp [continuesSegment, h]

theorem plain_of_continuesSegment {c : Char} (h : continuesSegment c = true) :
    isPlain c = true := by
  by_cases hsmall : c.toNat < 128
  · have := plain_below c.toNat hsmall
    rw [Char.ofNat_toNat] at this
    exact this h
  · -- From U+0080 on only letters and numbers go on a segment, and only blanks could do harm.
    have hne : ∀ d : Char, d.toNat < 128 → c ≠ d := fun d hd hcd => hsmall (hcd ▸ hd)
    have hletter : isLetterOrNumber c = true := by
      simpa [continuesSegment, hne '_' (by decide), hne '-' (by decide), hne '.' (by decide),
        hne ':' (by decide)] using h
    have hends : endsName c = false := by
      simp [endsName, isAsciiBlank, hne ' ' (by decide), hne '\t' (by decide),
        hne '\n' (by decide), hne '\x0c' (by decide), hne '\r' (by decide), hne '/' (by decide),
        hne '>' (by decide), hne '=' (by decide), hne '<' (by decide)]
    simp [isPlain, isBlank_of_isLetterOrNumber hsmall hletter, hends]

theorem continuesSegment_of_mem {segment : List Char} (h : isSegment segment = true) {c : Char}
    (hc : c ∈ segment) : continuesSegment c = true := by
  cases segment with
  | nil => cases hc
  | cons x xs =>
    simp only [isSegment, Bool.and_eq_true] at h
    rcases List.mem_cons.1 hc with rfl | hc
    · exact continuesSegment_of_startsSegment h.1
    · exact List.all_eq_true.1 h.2 c hc

theorem ne_nil_of_isSegment {segment : List Char} (h : isSegment segment = true) : segment ≠ [] := by
  rintro rfl
  cases h

/-- A segment is the name of a tag. -/
theorem isPlain_of_mem {segment : List Char} (h : isSegment segment = true) {c : Char}
    (hc : c ∈ segment) : isPlain c = true :=
  plain_of_continuesSegment (continuesSegment_of_mem h hc)

theorem isBlank_of_isPlain {c : Char} (h : isPlain c = true) : isBlank c = false := by
  simp only [isPlain, Bool.and_eq_true, Bool.not_eq_true'] at h
  exact h.1

theorem endsName_of_isPlain {c : Char} (h : isPlain c = true) : endsName c = false := by
  simp only [isPlain, Bool.and_eq_true, Bool.not_eq_true'] at h
  exact h.2

theorem ne_slash_of_isPlain {c : Char} (h : isPlain c = true) : c ≠ '/' := by
  rintro rfl
  exact absurd h (by decide)

/-! ## Names -/

namespace Path

/-- The segments of a path with slashes between them. -/
def joined (p : Path) : List Char := ['/'].intercalate (p.map String.toList)

theorem joined_cons_cons (segment next : String) (rest : Path) :
    joined (segment :: next :: rest) = segment.toList ++ '/' :: joined (next :: rest) := by
  simp [joined, List.intercalate]

theorem toList_text {p : Path} (hne : p ≠ []) : p.text.toList = '/' :: p.joined := by
  induction p with
  | nil => exact absurd rfl hne
  | cons segment rest ih =>
    cases rest with
    | nil => simp [text, joined, List.intercalate]
    | cons next rest =>
      rw [text, joined_cons_cons, String.toList_append, ih (List.cons_ne_nil next rest)]
      simp

theorem ofSegments_map {p : Path} (h : p.WellFormed) :
    ofSegments (p.map String.toList) = .ok p := by
  induction p with
  | nil => rfl
  | cons segment rest ih =>
    have hs := h segment List.mem_cons_self
    have hrest := ih fun s hs => h s (List.mem_cons_of_mem segment hs)
    simp only [List.map_cons, ofSegments, hs, if_true, hrest, String.ofList_toList]

theorem splitOn_joined {p : Path} (hne : p ≠ []) (h : p.WellFormed) :
    p.joined.splitOn '/' = p.map String.toList := by
  refine List.splitOn_intercalate '/' (fun segment hsegment hslash => ?_) (by simpa using hne)
  obtain ⟨s, hs, rfl⟩ := List.mem_map.1 hsegment
  exact ne_slash_of_isPlain (isPlain_of_mem (h s hs) hslash) rfl

/-- The segments come back from where the slashes are. -/
theorem ofSegments_joined {p : Path} (hne : p ≠ []) (h : p.WellFormed) :
    ofSegments (p.joined.splitOn '/') = .ok p := by
  rw [splitOn_joined hne h, ofSegments_map h]

/-- What a path without its outer slashes starts and ends with belongs to a segment. -/
theorem stopsBy_joined {p : Path} (h : p.WellFormed) {f : Char → Bool}
    (hf : ∀ c, isPlain c = true → f c = false) :
    StopsBy f p.joined ∧ StopsBy f p.joined.reverse ∧ (p ≠ [] → p.joined ≠ []) := by
  induction p with
  | nil => exact ⟨by simp [joined], by simp [joined], fun hne => absurd rfl hne⟩
  | cons segment rest ih =>
    have hs := h segment List.mem_cons_self
    have hall : ∀ c ∈ segment.toList, f c = false := fun c hc => hf c (isPlain_of_mem hs hc)
    have hne := ne_nil_of_isSegment hs
    cases rest with
    | nil =>
      have hjoined : joined [segment] = segment.toList := by simp [joined, List.intercalate]
      rw [hjoined]
      exact ⟨stopsBy_of_forall hall, stopsBy_of_forall fun c hc => hall c (List.mem_reverse.1 hc),
        fun _ => hne⟩
    | cons next rest =>
      obtain ⟨-, hlast, hrest⟩ := ih fun s hs => h s (List.mem_cons_of_mem segment hs)
      rw [joined_cons_cons]
      refine ⟨stopsBy_append hne (stopsBy_of_forall hall) _, ?_, fun _ => by simp⟩
      have hback := List.reverse_ne_nil_iff.2 (hrest (List.cons_ne_nil next rest))
      rw [List.reverse_append, List.reverse_cons, List.append_assoc]
      exact stopsBy_append hback hlast _

theorem isBlank_slash : isBlank '/' = false := by decide

/-- The slashes around a path are what is cut off at the ends of a name. -/
theorem stripBy_slashes {p : Path} (h : p.WellFormed) (after : List Char)
    (hafter : ∀ c ∈ after, c = '/') : stripBy (· = '/') ('/' :: p.joined ++ after) = p.joined := by
  obtain ⟨hfront, hlast, -⟩ := stopsBy_joined h (f := fun c => decide (c = '/'))
    fun c hc => decide_eq_false (ne_slash_of_isPlain hc)
  rw [← List.singleton_append]
  exact stripBy_append (by simp) hfront hlast fun c hc => decide_eq_true (hafter c hc)

/-- No blank is cut off a text between slashes, or behind one. -/
theorem stripBy_isBlank_text {p : Path} (hne : p ≠ []) (h : p.WellFormed) :
    stripBy isBlank p.text.toList = p.text.toList := by
  obtain ⟨-, hlast, hjoined⟩ := stopsBy_joined h fun c hc => isBlank_of_isPlain hc
  rw [toList_text hne]
  refine stripBy_eq_self ((stopsBy_cons ..).2 isBlank_slash) ?_
  rw [List.reverse_cons]
  exact stopsBy_append (List.reverse_ne_nil_iff.2 (hjoined hne)) hlast ['/']

/-- An absolute name reads as its path, wherever it is read. -/
theorem ofName_text {p : Path} (hne : p ≠ []) (h : p.WellFormed) (scope : String) :
    ofName p.text scope = .ok p := by
  have hstrip := stripBy_slashes h [] (by simp)
  have hjoined := (stopsBy_joined h fun c hc => isBlank_of_isPlain hc).2.2 hne
  rw [List.append_nil] at hstrip
  simp only [ofName, stripBy_isBlank_text hne h, qualified]
  simp only [toList_text hne, List.head?_cons, if_true, hstrip]
  exact ofSegments_joined hne h

/-- The text of a namespace reads as its path. -/
theorem ofScope_scopeText {p : Path} (h : p.WellFormed) : ofScope p.scopeText = .ok p := by
  have hslash : StopsBy isBlank ['/'] := (stopsBy_cons ..).2 isBlank_slash
  have hblank : stripBy isBlank p.scopeText.toList = p.scopeText.toList := by
    rw [scopeText, String.toList_append]
    apply stripBy_eq_self
    · cases p with
      | nil => exact hslash
      | cons segment rest =>
        rw [toList_text (List.cons_ne_nil segment rest), List.cons_append]
        exact (stopsBy_cons ..).2 isBlank_slash
    · rw [List.reverse_append]
      exact (stopsBy_cons ..).2 isBlank_slash
  cases p with
  | nil => rfl
  | cons segment rest =>
    have hne := List.cons_ne_nil segment rest
    have hstrip := stripBy_slashes h ['/'] (by simp)
    have hjoined := (stopsBy_joined h fun c hc => isBlank_of_isPlain hc).2.2 hne
    rw [ofScope, hblank, scopeText, String.toList_append, toList_text hne]
    rw [show "/".toList = ['/'] from rfl, hstrip]
    split
    · contradiction
    · exact ofSegments_joined hne h

theorem text_append (p q : Path) : (p ++ q).text = p.text ++ q.text := by
  induction p with
  | nil => simp [text]
  | cons segment rest ih => simp only [List.cons_append, text, ih, String.append_assoc]

theorem text_append_singleton (p : Path) (segment : String) :
    (p ++ [segment]).text = p.scopeText ++ segment := by
  rw [text_append, scopeText, String.append_assoc, text, text, String.append_empty]

theorem WellFormed.concat {p : Path} (h : p.WellFormed) {segment : String}
    (hs : isSegment segment.toList = true) : WellFormed (p ++ [segment]) := by
  intro s hmem
  rcases List.mem_append.1 hmem with hmem | hmem
  · exact h s hmem
  · rw [List.mem_singleton.1 hmem]
    exact hs

/-- A segment on its own reads as the entry of that name right below the namespace. -/
theorem ofName_segment {p : Path} (h : p.WellFormed) {segment : String}
    (hs : isSegment segment.toList = true) :
    ofName segment p.scopeText = .ok (p ++ [segment]) := by
  have hplain : ∀ c ∈ segment.toList, isPlain c = true := fun c hc => isPlain_of_mem hs hc
  have hstrip : stripBy isBlank segment.toList = segment.toList :=
    stripBy_of_forall fun c hc => isBlank_of_isPlain (hplain c hc)
  have hhead : segment.toList.head? ≠ some '/' := fun hslash =>
    ne_slash_of_isPlain (hplain '/' (List.mem_of_mem_head? hslash)) rfl
  have hq : qualified segment.toList p.scopeText = .ok (p ++ [segment]).text.toList := by
    rw [qualified, if_neg hhead, ofScope_scopeText h, text_append_singleton, String.toList_append]
    rfl
  have hne : p ++ [segment] ≠ [] := by simp
  have hwf := h.concat hs
  have hslashes := stripBy_slashes hwf [] (by simp)
  have hjoined := (stopsBy_joined hwf fun c hc => isBlank_of_isPlain hc).2.2 hne
  rw [List.append_nil] at hslashes
  simp only [ofName, hstrip, hq, toList_text hne, hslashes]
  exact ofSegments_joined hne hwf

theorem ofSegments_ne_nil {pieces : List (List Char)} (hne : pieces ≠ []) :
    ofSegments pieces ≠ .ok [] := by
  intro h
  unfold ofSegments at h
  split at h
  · exact hne rfl
  · split at h
    · split at h <;> cases h
    · cases h

theorem ne_nil_of_ofName {name scope : String} {p : Path} (h : ofName name scope = .ok p) :
    p ≠ [] := by
  unfold ofName at h
  simp only at h
  split at h
  · cases h
  · split at h
    · cases h
    · rintro rfl
      exact ofSegments_ne_nil (List.splitOn_ne_nil _ _) h

end Path
end Registry
end Lockstep
