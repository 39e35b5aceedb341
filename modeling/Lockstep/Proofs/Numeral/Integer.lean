import Lockstep.Numeral.Integer

/- Numerals read back.

   `digitsValue_naturalChars` says that the digits of a number spell it; zeros in front change
   nothing. From it, every number below the limit is read back from its digits, padded or not, and
   every 32-bit integer from its text. -/
namespace Lockstep.Numeral

@[simp] theorem digitsValue_nil : digitsValue [] = 0 := rfl

theorem digitsValue_append_singleton (cs : List Char) (c : Char) :
    digitsValue (cs ++ [c]) = 10 * digitsValue cs + digitValue c := by
  simp [digitsValue]

theorem digitsValue_append (a b : List Char) :
    digitsValue (a ++ b) = digitsValue a * 10 ^ b.length + digitsValue b := by
  induction b generalizing a with
  | nil => simp
  | cons c cs ih =>
    have hone : digitsValue [c] = digitValue c := by simp [digitsValue]
    rw [show a ++ c :: cs = (a ++ [c]) ++ cs by simp, show c :: cs = [c] ++ cs from rfl, ih, ih [c],
      digitsValue_append_singleton, hone, List.length_append, List.length_singleton, Nat.pow_add]
    rw [Nat.add_mul, Nat.mul_assoc 10, Nat.mul_left_comm 10, Nat.pow_one, Nat.add_assoc]

theorem digitValue_digitChar {d : Nat} (h : d < 10) : digitValue d.digitChar = d := by
  match d, h with
  | 0, _ | 1, _ | 2, _ | 3, _ | 4, _ | 5, _ | 6, _ | 7, _ | 8, _ | 9, _ => rfl

theorem naturalChars_eq_if (n : Nat) :
    naturalChars n =
      if n < 10 then [n.digitChar] else naturalChars (n / 10) ++ [(n % 10).digitChar] :=
  Nat.toDigits_eq_if (by decide)

/-- The digits of a number spell it. -/
@[simp] theorem digitsValue_naturalChars (n : Nat) : digitsValue (naturalChars n) = n := by
  induction n using Nat.strongRecOn with
  | _ n ih =>
    rw [naturalChars_eq_if]
    split
    · rename_i h
      simp [digitsValue, digitValue_digitChar h]
    · rename_i h
      rw [digitsValue_append_singleton, ih (n / 10) (by omega),
        digitValue_digitChar (Nat.mod_lt n (by decide))]
      omega

theorem isDigit_of_mem_naturalChars {n : Nat} {c : Char} (h : c ∈ naturalChars n) :
    c.isDigit = true :=
  Nat.isDigit_of_mem_toDigits (by decide) (by decide) h

theorem naturalChars_ne_nil (n : Nat) : naturalChars n ≠ [] := Nat.toDigits_ne_nil

/-- Zeros in front of digits do not count. -/
theorem digitsValue_zeros_append (n : Nat) (cs : List Char) :
    digitsValue (List.replicate n '0' ++ cs) = digitsValue cs := by
  induction n with
  | zero => simp
  | succ n ih =>
    rw [List.replicate_succ, List.cons_append]
    exact ih

theorem digitsValue_append_zeros (cs : List Char) (n : Nat) :
    digitsValue (cs ++ List.replicate n '0') = digitsValue cs * 10 ^ n := by
  have hzeros := digitsValue_zeros_append n []
  rw [List.append_nil] at hzeros
  rw [digitsValue_append, hzeros, digitsValue_nil, Nat.add_zero, List.length_replicate]

theorem isDigit_of_mem_padded {width n : Nat} {c : Char} (h : c ∈ padded width n) :
    c.isDigit = true := by
  rcases List.mem_append.1 h with h | h
  · rw [List.eq_of_mem_replicate h]
    rfl
  · exact isDigit_of_mem_naturalChars h

theorem digits?_padded (width n : Nat) : digits? (padded width n) = some n := by
  have hne : padded width n ≠ [] := by simp [padded, naturalChars_ne_nil]
  have hall : (padded width n).all Char.isDigit = true :=
    List.all_eq_true.2 fun c hc => isDigit_of_mem_padded hc
  rw [digits?, if_pos ⟨hne, hall⟩, padded, digitsValue_zeros_append, digitsValue_naturalChars]

theorem padded_zero (n : Nat) : padded 0 n = naturalChars n := by simp [padded]

theorem digits?_naturalChars (n : Nat) : digits? (naturalChars n) = some n := by
  rw [← padded_zero, digits?_padded]

/-- A text of digits alone has no sign. -/
theorem natural?_eq_filter {cs : List Char} (hd : ∀ c ∈ cs, c.isDigit = true) (limit : Nat) :
    natural? limit cs = (digits? cs).filter (· < limit) := by
  unfold natural?
  split
  · exact absurd (hd '+' List.mem_cons_self) (by decide)
  · rfl

theorem natural?_of_digits {limit n : Nat} {cs : List Char} (hd : ∀ c ∈ cs, c.isDigit = true)
    (hv : digits? cs = some n) (h : n < limit) : natural? limit cs = some n := by
  rw [natural?_eq_filter hd, hv, Option.filter_some, if_pos (decide_eq_true h)]

theorem natural?_padded {limit n : Nat} (width : Nat) (h : n < limit) :
    natural? limit (padded width n) = some n :=
  natural?_of_digits (fun _ hc => isDigit_of_mem_padded hc) (digits?_padded width n) h

theorem natural?_naturalChars {limit n : Nat} (h : n < limit) :
    natural? limit (naturalChars n) = some n := by
  rw [← padded_zero, natural?_padded 0 h]

/-- Digits that are read give the number that they were written for. -/
theorem eq_of_natural?_naturalChars {limit n m : Nat}
    (h : natural? limit (naturalChars n) = some m) : m = n := by
  rw [natural?_eq_filter fun _ hc => isDigit_of_mem_naturalChars hc, digits?_naturalChars] at h
  exact (Option.some.inj (Option.filter_eq_some_iff.1 h).1).symm

theorem lt_of_natural?_eq_some {limit n : Nat} {cs : List Char} (h : natural? limit cs = some n) :
    n < limit := by
  have := (Option.filter_eq_some_iff.1 h).2
  simpa using this

/-! ## Signed integers -/

theorem toInt_bounds (n : Int32) : -2 ^ 31 ≤ n.toInt ∧ n.toInt < 2 ^ 31 :=
  ⟨n.le_toInt, n.toInt_lt⟩

/-- Every 32-bit integer is read back from its text. -/
theorem int32?_int32Chars (n : Int32) : int32? (int32Chars n) = some n := by
  obtain ⟨hlow, hhigh⟩ := toInt_bounds n
  unfold int32Chars
  split
  · rename_i hneg
    have hle : n.toInt.natAbs ≤ 2 ^ 31 := by omega
    have hback : -(n.toInt.natAbs : Int) = n.toInt := by omega
    simp only [int32?, digits?_naturalChars, Option.filter_some, hle, decide_true, if_true]
    show some (Int32.ofInt (-(n.toInt.natAbs : Int))) = some n
    rw [hback, Int32.ofInt_toInt]
  · rename_i hneg
    have hlt : n.toInt.natAbs < 2 ^ 31 := by omega
    have hback : (n.toInt.natAbs : Int) = n.toInt := by omega
    unfold int32?
    split
    · rename_i body hbody
      have hdigit := isDigit_of_mem_naturalChars (n := n.toInt.natAbs) (c := '-')
        (by rw [hbody]; exact List.mem_cons_self)
      exact absurd hdigit (by decide)
    · rw [natural?_naturalChars hlt]
      show some (Int32.ofInt (n.toInt.natAbs : Int)) = some n
      rw [hback, Int32.ofInt_toInt]

theorem isDigit_of_mem_int32Chars {n : Int32} {c : Char} (h : c ∈ int32Chars n) :
    c.isDigit = true ∨ c = '-' := by
  unfold int32Chars at h
  split at h
  · rcases List.mem_cons.1 h with rfl | h
    · exact .inr rfl
    · exact .inl (isDigit_of_mem_naturalChars h)
  · exact .inl (isDigit_of_mem_naturalChars h)

theorem int32Chars_ne_nil (n : Int32) : int32Chars n ≠ [] := by
  unfold int32Chars
  split
  · exact List.cons_ne_nil _ _
  · exact naturalChars_ne_nil _

end Lockstep.Numeral
