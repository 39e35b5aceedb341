import Lockstep.Numeral.Shortest
import Lockstep.Proofs.Numeral.Binary32
import Lockstep.Proofs.Numeral.Integer
import Lockstep.Proofs.Text.Span

/- The text of a number reads back.

   1. Whatever the search finds rounds to the magnitude, and so does the exact expansion
      (`roundDecimal_shortest`). Zeros at the end of the digits are worth a power of ten
      (`roundDecimal_stripped`).
   2. Both layouts spell their digits, with zeros added at most: `ofDigits?_positional` and
      `ofDigits?_scientific` say what is read back from them.
   3. `ofChars?_chars`: every number that is one is read back from its text, bit for bit. Its text
      is made of the characters of `isNumeralChar`. -/
namespace Lockstep.Binary32
open Numeral

/-! ## The digits -/

/-- Of two numbers tried one after the other, the one that is taken has the property tried for. -/
theorem of_first_of_two {p : Nat → Prop} [DecidablePred p] {a b d : Nat}
    (h : (if p a then some a else if p b then some b else none) = some d) : p d := by
  split at h
  · cases h
    assumption
  · split at h
    · cases h
      assumption
    · cases h

theorem roundDecimal_of_candidate? {m d : Nat} {e : Int} (h : candidate? m e = some d) :
    roundDecimal d e = m := by
  unfold candidate? at h
  dsimp only at h
  split at h
  · exact of_first_of_two (p := fun d => roundDecimal d e = m) h
  · exact of_first_of_two (p := fun d => roundDecimal d e = m) h

theorem roundDecimal_of_search {m d : Nat} {point e : Int} (h : search m point = some (d, e)) :
    roundDecimal d e = m := by
  obtain ⟨n, -, hn⟩ := List.exists_of_findSome?_eq_some h
  obtain ⟨d', hd, heq⟩ := Option.map_eq_some_iff.1 hn
  cases heq
  exact roundDecimal_of_candidate? hd

theorem roundDecimal_exact {m : Nat} (hpos : 0 < m) (hm : m ≤ infinityMagnitude) :
    roundDecimal (exact m).1 (exact m).2 = m := by
  have hnum : ((-149 : Int)).toNat = 0 := by decide
  have hden : (-(-149 : Int)).toNat = 149 := by decide
  rw [roundDecimal_eq, ratio, exact, hnum, hden, Nat.pow_zero, Nat.mul_one]
  rw [show 10 ^ 149 = 2 ^ 149 * 5 ^ 149 by rw [← Nat.mul_pow],
    roundRatio_mul_right (Nat.pow_pos (by decide))]
  exact roundRatio_units hpos hm

/-- The digits found for a magnitude round to it. -/
theorem roundDecimal_shortest {m : Nat} (hpos : 0 < m) (hm : m ≤ infinityMagnitude) :
    roundDecimal (shortest m).1 (shortest m).2 = m := by
  unfold shortest
  cases h : search m (pointOf (units m)) with
  | none => exact roundDecimal_exact hpos hm
  | some found => exact roundDecimal_of_search h

/-- What is cut off the end of a text for one character is that character, repeated. -/
theorem stripEndBy_append_replicate (c : Char) (cs : List Char) :
    ∃ k, cs = Text.stripEndBy (· = c) cs ++ List.replicate k c := by
  obtain ⟨after, hsplit, hafter, -⟩ := Text.exists_stripEndBy (fun x => decide (x = c)) cs
  have hall : after = List.replicate after.length c :=
    List.eq_replicate_iff.2 ⟨rfl, fun x hx => of_decide_eq_true (hafter x hx)⟩
  exact ⟨after.length, by rw [← hall]; exact hsplit⟩

/-- The digits of a decimal without the zeros at their end, against the point in front of them,
    round to what the decimal does. There is a digit left unless the decimal is zero. -/
theorem roundDecimal_stripped {d m : Nat} {e : Int} (h : roundDecimal d e = m) (hm : 0 < m) :
    let ds := Text.stripEndBy (· = '0') (naturalChars d)
    ds ≠ [] ∧ (∀ c ∈ ds, c.isDigit = true) ∧
      roundDecimal (digitsValue ds) (e + (naturalChars d).length - ds.length) = m := by
  dsimp only
  obtain ⟨k, hk⟩ := stripEndBy_append_replicate '0' (naturalChars d)
  generalize Text.stripEndBy (· = '0') (naturalChars d) = ds at hk
  have hvalue : d = digitsValue ds * 10 ^ k := by
    rw [← digitsValue_append_zeros, ← hk, digitsValue_naturalChars]
  have hlength : (naturalChars d).length = ds.length + k := by
    rw [hk, List.length_append, List.length_replicate]
  refine ⟨fun hnil => ?_, fun c hc => ?_, ?_⟩
  · -- Zeros alone are worth zero, which does not round to a positive magnitude.
    rw [hvalue, hnil, digitsValue_nil, Nat.zero_mul] at h
    have hzero : roundDecimal 0 e = 0 := if_pos rfl
    omega
  · exact isDigit_of_mem_naturalChars (by rw [hk]; exact List.mem_append_left _ hc)
  · rw [← h, hvalue, ← roundDecimal_mul_pow _ _ k, ← hvalue, hlength]
    congr 1
    omega

/-! ## Reading the layouts -/

open Text Decimal

/-- A text of digits. -/
def IsDigits (cs : List Char) : Prop := ∀ c ∈ cs, c.isDigit = true

theorem isDigits_append {a b : List Char} (ha : IsDigits a) (hb : IsDigits b) :
    IsDigits (a ++ b) := List.forall_mem_append.2 ⟨ha, hb⟩

theorem isDigits_zeros (k : Nat) : IsDigits (List.replicate k '0') := by
  intro c hc
  rw [List.eq_of_mem_replicate hc]
  rfl

theorem isDigits_naturalChars (n : Nat) : IsDigits (naturalChars n) :=
  fun _ hc => isDigit_of_mem_naturalChars hc

theorem exponent?_chars (e : Int) :
    exponent? ('e' :: ((if e < 0 then ['-'] else []) ++ naturalChars e.natAbs)) = some e := by
  unfold exponent?
  dsimp only
  rw [if_pos (.inl rfl)]
  by_cases h : e < 0
  · rw [if_pos h]
    show (digits? (naturalChars e.natAbs)).map (fun n => -(n : Int)) = some e
    rw [digits?_naturalChars]
    show some (-(e.natAbs : Int)) = some e
    rw [show -(e.natAbs : Int) = e by omega]
  · rw [if_neg h, List.nil_append]
    -- The digits start with no sign, so that it is the last case that reads them.
    have hsign : ∀ c, c.isDigit = false → ∀ body, naturalChars e.natAbs ≠ c :: body :=
      fun c hc body heq => by
        have hdigit := isDigits_naturalChars e.natAbs c (by rw [heq]; exact List.mem_cons_self)
        rw [hc] at hdigit
        cases hdigit
    split
    · rename_i heq
      exact absurd heq (hsign '-' (by decide) _)
    · rename_i heq
      exact absurd heq (hsign '+' (by decide) _)
    · rw [digits?_naturalChars]
      show some (e.natAbs : Int) = some e
      rw [show (e.natAbs : Int) = e by omega]

/-- Digits around a point, and an exponent behind them. -/
theorem ofDigits?_point {whole fraction tail : List Char} {e : Int} (hw : IsDigits whole)
    (hne : whole ≠ []) (hf : IsDigits fraction) (ht : StopsBy Char.isDigit tail)
    (he : exponent? tail = some e) (negative : Bool) :
    ofDigits? negative (whole ++ '.' :: (fraction ++ tail)) =
      some (.finite negative (digitsValue (whole ++ fraction)) (e - fraction.length)) := by
  have hstop : StopsBy Char.isDigit ('.' :: (fraction ++ tail)) := by simp
  have hparts : parts (whole ++ '.' :: (fraction ++ tail)) = (whole, fraction, tail) := by
    simp only [parts, takeWhile_append_of_stopsBy hw hstop, dropWhile_append_of_stopsBy hw hstop,
      takeWhile_append_of_stopsBy hf ht, dropWhile_append_of_stopsBy hf ht]
  have hsome : ¬ (whole = [] ∧ fraction = []) := fun h => hne h.1
  simp only [ofDigits?, hparts, if_neg hsome, he, Option.map_some]

/-- One digit and an exponent. -/
theorem ofDigits?_single {c : Char} {tail : List Char} {e : Int} (hc : c.isDigit = true)
    (he : exponent? ('e' :: tail) = some e) (negative : Bool) :
    ofDigits? negative (c :: 'e' :: tail) = some (.finite negative (digitsValue [c]) e) := by
  have hw : ∀ x ∈ [c], x.isDigit = true := fun x hx => by rw [List.mem_singleton.1 hx]; exact hc
  have hstop : StopsBy Char.isDigit ('e' :: tail) := by simp
  have hparts : parts (c :: 'e' :: tail) = ([c], [], 'e' :: tail) := by
    have htake := takeWhile_append_of_stopsBy hw hstop
    have hdrop := dropWhile_append_of_stopsBy hw hstop
    rw [List.singleton_append] at htake hdrop
    simp only [parts, htake, hdrop]
    rfl
  have hsome : ¬ ([c] = [] ∧ True) := fun h => List.cons_ne_nil _ _ h.1
  simp only [ofDigits?, hparts, if_neg hsome, he, Option.map_some, List.append_nil,
    List.length_nil, Int.ofNat_zero, Int.sub_zero]

/-- Digits around a point that show those of `ds`, with zeros added, denote what `ds` does with
    the point before it. -/
theorem ofDigits?_spelled {whole fraction ds : List Char} (k : Nat) {point : Int}
    (hw : IsDigits whole) (hne : whole ≠ []) (hf : IsDigits fraction)
    (hvalue : digitsValue (whole ++ fraction) = digitsValue ds * 10 ^ k)
    (hpoint : point + fraction.length = ds.length + k) (negative : Bool) :
    ofDigits? negative (whole ++ '.' :: fraction) =
      some (.finite negative (digitsValue ds * 10 ^ k) (point - ds.length - k)) := by
  have hread := ofDigits?_point hw hne hf (stopsBy_nil _) (e := 0) rfl negative
  rw [List.append_nil, hvalue] at hread
  rw [hread, show (0 : Int) - fraction.length = point - ds.length - k by omega]

/-- Positional digits are read as the digits they show, zeros behind them included. -/
theorem ofDigits?_positional {ds : List Char} (hd : IsDigits ds) (point : Int) (negative : Bool) :
    ∃ k : Nat, ofDigits? negative (positional ds point) =
      some (.finite negative (digitsValue ds * 10 ^ k) (point - ds.length - k)) := by
  have hzero : IsDigits ['0'] := isDigits_zeros 1
  unfold positional
  split
  · -- The point is left of the digits.
    rename_i k
    refine ⟨0, ofDigits?_spelled 0 hzero (by simp) (isDigits_append (isDigits_zeros (k + 1)) hd)
      ?_ ?_ negative⟩
    · rw [Nat.pow_zero, Nat.mul_one, ← List.append_assoc]
      exact digitsValue_zeros_append (k + 2) ds
    · rw [List.length_append, List.length_replicate]
      omega
  · refine ⟨0, ofDigits?_spelled 0 hzero (by simp) hd ?_ ?_ negative⟩
    · rw [Nat.pow_zero, Nat.mul_one]
      exact digitsValue_zeros_append 1 ds
    · rw [Int.ofNat_eq_natCast]
      omega
  · rename_i k hk
    split
    · -- It is within them.
      rename_i hlt
      have htake : IsDigits (ds.take k) := fun c hc => hd c (List.mem_of_mem_take hc)
      have hdrop : IsDigits (ds.drop k) := fun c hc => hd c (List.mem_of_mem_drop hc)
      have hne : ds.take k ≠ [] := by
        intro hnil
        have hlength := congrArg List.length hnil
        rw [List.length_take, List.length_nil] at hlength
        have hpos : k ≠ 0 := hk
        omega
      refine ⟨0, ofDigits?_spelled 0 htake hne hdrop ?_ ?_ negative⟩
      · rw [List.take_append_drop, Nat.pow_zero, Nat.mul_one]
      · rw [List.length_drop, Int.ofNat_eq_natCast]
        omega
    · -- It is right of them.
      rename_i hge
      have hwhole : IsDigits (ds ++ List.replicate (k - ds.length) '0') :=
        isDigits_append hd (isDigits_zeros _)
      have hne : ds ++ List.replicate (k - ds.length) '0' ≠ [] := by
        intro hnil
        have hlength := congrArg List.length hnil
        rw [List.length_append, List.length_replicate, List.length_nil] at hlength
        have hpos : k ≠ 0 := hk
        omega
      refine ⟨k - ds.length + 1, ofDigits?_spelled _ hwhole hne hzero ?_ ?_ negative⟩
      · rw [List.append_assoc, ← List.replicate_succ', digitsValue_append_zeros]
      · rw [List.length_singleton, Int.ofNat_eq_natCast]
        omega

/-- Digits with an exponent are read as they are. -/
theorem ofDigits?_scientific {ds : List Char} (hd : IsDigits ds) (hne : ds ≠ []) (point : Int)
    (negative : Bool) :
    ofDigits? negative (scientific ds point) =
      some (.finite negative (digitsValue ds) (point - ds.length)) := by
  have hexp := exponent?_chars (point - 1)
  cases ds with
  | nil => exact absurd rfl hne
  | cons c rest =>
    have hc : c.isDigit = true := hd c List.mem_cons_self
    cases rest with
    | nil => exact ofDigits?_single hc hexp negative
    | cons c' rest =>
      have hw : IsDigits [c] := fun x hx => by rw [List.mem_singleton.1 hx]; exact hc
      have hf : IsDigits (c' :: rest) := fun x hx => hd x (List.mem_cons_of_mem c hx)
      have hstop : StopsBy Char.isDigit ('e' ::
          ((if point - 1 < 0 then ['-'] else []) ++ naturalChars (point - 1).natAbs)) := by simp
      have hread := ofDigits?_point hw (by simp) hf hstop hexp negative
      have hlength : point - 1 - (c' :: rest).length = point - (c :: c' :: rest).length := by
        simp only [List.length_cons]
        omega
      rw [hlength] at hread
      exact hread

/-! ## Numbers with their sign -/

theorem ofDigits?_eq_none {c : Char} (hc : c.isDigit = false) (hpoint : c ≠ '.') (cs : List Char)
    (negative : Bool) : ofDigits? negative (c :: cs) = none := by
  have hparts : parts (c :: cs) = ([], [], c :: cs) := by
    simp only [parts, List.takeWhile_cons, List.dropWhile_cons, hc, Bool.false_eq_true, if_false]
    split
    · rename_i body heq
      cases heq
      exact absurd rfl hpoint
    · rfl
  simp only [ofDigits?, hparts, and_self, if_true]

/-- What starts a text of digits. -/
theorem exists_of_ofDigits? {cs : List Char} {d : Decimal} {negative : Bool}
    (h : ofDigits? negative cs = some d) : ∃ c rest, cs = c :: rest ∧ (c.isDigit = true ∨ c = '.') := by
  cases cs with
  | nil => cases h
  | cons c rest =>
    refine ⟨c, rest, rfl, ?_⟩
    cases hc : c.isDigit with
    | true => exact .inl rfl
    | false =>
      refine .inr (Decidable.byContradiction fun hpoint => ?_)
      rw [ofDigits?_eq_none hc hpoint] at h
      cases h

theorem toLower_eq_self {c : Char} (h : c.isDigit = true ∨ c = '.') : c.toLower = c := by
  rcases h with h | rfl
  · have hle : c.val ≤ '9'.val := by
      rw [Char.isDigit, Bool.and_eq_true, decide_eq_true_eq, decide_eq_true_eq] at h
      exact h.2
    apply dif_neg
    intro hupper
    have hlt : '9'.val < 'A'.val := by decide
    exact absurd (UInt32.lt_of_lt_of_le hlt hupper.1) (UInt32.not_lt.2 hle)
  · rfl

/-- Digits are read behind their sign. -/
theorem ofChars?_of_digits {cs : List Char} {d : Decimal} {negative : Bool}
    (h : ofDigits? negative cs = some d) :
    Decimal.ofChars? ((if negative then ['-'] else []) ++ cs) = some d := by
  obtain ⟨c, rest, rfl, hc⟩ := exists_of_ofDigits? h
  have hne : ∀ x : Char, x.isDigit = false → x ≠ '.' → c ≠ x := by
    rintro x hx hpoint rfl
    rcases hc with hc | hc
    · rw [hx] at hc
      cases hc
    · exact hpoint hc
  -- So it is none of the words for infinity and for no number, in either case.
  have hword : ∀ (x : Char) (xs : List Char), x.isDigit = false → x ≠ '.' →
      (c :: rest).map Char.toLower ≠ x :: xs := by
    intro x xs hx hpoint heq
    rw [List.map_cons, toLower_eq_self hc] at heq
    exact hne x hx hpoint (List.cons.inj heq).1
  have hunsigned : ofUnsigned? negative (c :: rest) = some d := by
    have hinf : ¬ ((c :: rest).map Char.toLower = "inf".toList ∨
        (c :: rest).map Char.toLower = "infinity".toList) :=
      fun heq => heq.elim (hword 'i' _ rfl (by decide)) (hword 'i' _ rfl (by decide))
    have hnan : (c :: rest).map Char.toLower ≠ "nan".toList := hword 'n' _ rfl (by decide)
    simp only [ofUnsigned?, if_neg hinf, if_neg hnan, h]
  cases negative with
  | true => exact hunsigned
  | false =>
    show Decimal.ofChars? (c :: rest) = some d
    unfold Decimal.ofChars?
    split
    · rename_i heq
      exact absurd (List.cons.inj heq).1 (hne '-' rfl (by decide))
    · rename_i heq
      exact absurd (List.cons.inj heq).1 (hne '+' rfl (by decide))
    · exact hunsigned

/-- Sign and magnitude make up a number. -/
theorem ofMagnitude_magnitude (x : Binary32) : ofMagnitude x.negative x.magnitude = x := by
  have hlt : x.bits.toNat < 2 ^ 32 := x.bits.toNat_lt
  have hbits : (if x.negative then 2 ^ 31 + x.magnitude else x.magnitude) = x.bits.toNat := by
    unfold negative magnitude
    by_cases h : 2 ^ 31 ≤ x.bits.toNat
    · rw [if_pos (decide_eq_true h)]
      omega
    · rw [if_neg (by simpa using h)]
      omega
  rw [ofMagnitude, hbits, UInt32.ofNat_toNat]

/-- The text of a decimal is read as digits that round as it does. -/
theorem ofDigits?_decimalChars {d m : Nat} {e : Int} (h : roundDecimal d e = m) (hm : 0 < m)
    (negative : Bool) : ∃ read, ofDigits? negative (decimalChars d e) = some read ∧
      ofDecimal read = ofMagnitude negative m := by
  obtain ⟨hne, hd, hstripped⟩ := roundDecimal_stripped h hm
  unfold decimalChars
  dsimp only
  split
  · obtain ⟨k, hk⟩ := ofDigits?_positional hd (e + (naturalChars d).length) negative
    refine ⟨_, hk, ?_⟩
    rw [ofDecimal, roundDecimal_mul_pow, hstripped]
  · refine ⟨_, ofDigits?_scientific hd hne _ negative, ?_⟩
    rw [ofDecimal, hstripped]

/-- Every number is read back from its text, bit for bit. -/
theorem ofChars?_chars {x : Binary32} (h : x.isNaN = false) : ofChars? x.chars = some x := by
  have hm : x.magnitude ≤ infinityMagnitude := by
    simpa [isNaN] using h
  have hnan : ¬ x.isNaN = true := by
    rw [h]
    exact Bool.false_ne_true
  unfold ofChars? chars
  rw [if_neg hnan]
  by_cases hinf : x.magnitude = infinityMagnitude
  · have hread : Decimal.ofChars? ((if x.negative then ['-'] else []) ++ "inf".toList) =
        some (.infinite x.negative) := by
      cases x.negative <;> rfl
    rw [if_pos (show x.isInfinite = true from decide_eq_true hinf), hread, Option.map_some,
      ofDecimal, ← hinf, ofMagnitude_magnitude]
  · rw [if_neg (show ¬ x.isInfinite = true from fun h => hinf (of_decide_eq_true h))]
    by_cases hzero : x.magnitude = 0
    · have hread : Decimal.ofChars? ((if x.negative then ['-'] else []) ++ "0.0".toList) =
          some (.finite x.negative 0 (-1)) := by
        cases x.negative <;> rfl
      have hround : roundDecimal 0 (-1) = x.magnitude := hzero.symm
      rw [if_pos hzero, hread, Option.map_some, ofDecimal, hround, ofMagnitude_magnitude]
    · have hpos : 0 < x.magnitude := Nat.pos_of_ne_zero hzero
      obtain ⟨d, hread, hvalue⟩ :=
        ofDigits?_decimalChars (roundDecimal_shortest hpos hm) hpos x.negative
      rw [if_neg hzero, magnitudeChars, ofChars?_of_digits hread, Option.map_some, hvalue,
        ofMagnitude_magnitude]

/-! ## The characters of a numeral -/

/-- The characters that the texts of numbers are made of. -/
def isNumeralChar (c : Char) : Bool :=
  c.isDigit || ['-', '.', 'e', 'i', 'n', 'f'].contains c

theorem isNumeralChar_of_isDigit {c : Char} (h : c.isDigit = true) : isNumeralChar c = true := by
  rw [isNumeralChar, h, Bool.true_or]

/-- A text of these characters. -/
def IsNumeral (cs : List Char) : Prop := ∀ c ∈ cs, isNumeralChar c = true

theorem isNumeral_nil : IsNumeral [] := List.forall_mem_nil _

theorem isNumeral_cons {c : Char} {cs : List Char} (hc : isNumeralChar c = true)
    (h : IsNumeral cs) : IsNumeral (c :: cs) := List.forall_mem_cons.2 ⟨hc, h⟩

theorem isNumeral_append {a b : List Char} (ha : IsNumeral a) (hb : IsNumeral b) :
    IsNumeral (a ++ b) := List.forall_mem_append.2 ⟨ha, hb⟩

theorem isNumeral_of_isDigits {cs : List Char} (h : IsDigits cs) : IsNumeral cs :=
  fun c hc => isNumeralChar_of_isDigit (h c hc)

theorem isNumeral_sign (p : Prop) [Decidable p] : IsNumeral (if p then ['-'] else []) := by
  split
  · exact isNumeral_cons rfl isNumeral_nil
  · exact isNumeral_nil

theorem isNumeral_positional {ds : List Char} (hd : IsDigits ds) (point : Int) :
    IsNumeral (positional ds point) := by
  have hds := isNumeral_of_isDigits hd
  have hzeros : ∀ k, IsNumeral (List.replicate k '0') := fun k =>
    isNumeral_of_isDigits (isDigits_zeros k)
  unfold positional
  split
  · exact isNumeral_cons rfl (isNumeral_cons rfl (isNumeral_append (hzeros _) hds))
  · exact isNumeral_cons rfl (isNumeral_cons rfl hds)
  · split
    · refine isNumeral_append (fun c hc => hds c (List.mem_of_mem_take hc)) (isNumeral_cons rfl ?_)
      exact fun c hc => hds c (List.mem_of_mem_drop hc)
    · refine isNumeral_append (isNumeral_append hds (hzeros _)) ?_
      exact isNumeral_cons rfl (isNumeral_cons rfl isNumeral_nil)

theorem isNumeral_scientific {ds : List Char} (hd : IsDigits ds) (point : Int) :
    IsNumeral (scientific ds point) := by
  have hds := isNumeral_of_isDigits hd
  have hexp : IsNumeral ((if point - 1 < 0 then ['-'] else []) ++ naturalChars (point - 1).natAbs) :=
    isNumeral_append (isNumeral_sign _) (isNumeral_of_isDigits (isDigits_naturalChars _))
  unfold scientific
  refine isNumeral_append (isNumeral_append ?_ ?_) (isNumeral_cons rfl hexp)
  · exact fun c hc => hds c (List.mem_of_mem_take hc)
  · split
    · exact isNumeral_nil
    · rename_i tail htail
      refine isNumeral_cons rfl fun c hc => hds c (List.mem_of_mem_tail ?_)
      exact hc

/-- The text of a number is made of the characters of numerals. -/
theorem isNumeral_chars {x : Binary32} (h : x.isNaN = false) : IsNumeral x.chars := by
  have hds : IsDigits (stripEndBy (· = '0') (naturalChars (shortest x.magnitude).1)) := by
    obtain ⟨k, hk⟩ := stripEndBy_append_replicate '0' (naturalChars (shortest x.magnitude).1)
    intro c hc
    refine isDigits_naturalChars (shortest x.magnitude).1 c ?_
    rw [hk]
    exact List.mem_append_left _ hc
  unfold chars
  rw [h]
  refine isNumeral_append (isNumeral_sign _) ?_
  split
  · exact isNumeral_cons rfl (isNumeral_cons rfl (isNumeral_cons rfl isNumeral_nil))
  · split
    · exact isNumeral_cons rfl (isNumeral_cons rfl (isNumeral_cons rfl isNumeral_nil))
    · unfold magnitudeChars decimalChars
      dsimp only
      split
      · exact isNumeral_positional hds _
      · exact isNumeral_scientific hds _

theorem isNumeral_int32Chars (n : Int32) : IsNumeral (int32Chars n) := by
  intro c hc
  rcases isDigit_of_mem_int32Chars hc with h | rfl
  · exact isNumeralChar_of_isDigit h
  · rfl

/-- The numerals' characters are few, but which characters are blanks is only known one by one. -/
theorem isBlank_below : ∀ n < 128, isNumeralChar (Char.ofNat n) = true →
    isBlank (Char.ofNat n) = false := by decide +kernel

/-- No character of a numeral is a blank. -/
theorem isBlank_of_isNumeralChar {c : Char} (h : isNumeralChar c = true) : isBlank c = false := by
  have hsmall : c.toNat < 128 := by
    rw [isNumeralChar, Bool.or_eq_true] at h
    rcases h with h | h
    · rw [Char.isDigit, Bool.and_eq_true, decide_eq_true_eq, decide_eq_true_eq] at h
      exact Nat.lt_of_le_of_lt (UInt32.le_iff_toNat_le.1 h.2) (by decide)
    · have hall : (['-', '.', 'e', 'i', 'n', 'f'].all fun x => x.toNat < 128) = true := by decide
      exact of_decide_eq_true (List.all_eq_true.1 hall c (List.contains_iff_mem.1 h))
  have hblank := isBlank_below c.toNat hsmall
  rw [Char.ofNat_toNat] at hblank
  exact hblank h

/-- Nor is any character of the word for no number. -/
theorem isBlank_of_mem_chars {x : Binary32} {c : Char} (hc : c ∈ x.chars) : isBlank c = false := by
  cases h : x.isNaN with
  | false => exact isBlank_of_isNumeralChar (isNumeral_chars h c hc)
  | true =>
    have hword : "NaN".toList.any isBlank = false := by decide
    rw [chars, if_pos h] at hc
    exact Bool.eq_false_iff.2 (List.any_eq_false.1 hword c hc)

/-- Nothing is cut off the ends of a numeral. -/
theorem stripBy_isBlank_of_isNumeral {cs : List Char} (h : IsNumeral cs) :
    stripBy isBlank cs = cs :=
  stripBy_of_forall fun c hc => isBlank_of_isNumeralChar (h c hc)

end Lockstep.Binary32
