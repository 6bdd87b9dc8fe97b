import ElispBridge.Binary64.Text
/-!
The shape of the text of a float: digits on both sides of a point, or the name of NaN or of an
infinity.
-/

namespace ElispBridge.Binary64

structure IsDigits (s : List Char) : Prop where
  ne_nil : s ≠ []
  digit : ∀ c ∈ s, c.isDigit = true

theorem isDigits_toDigits (n : Nat) : IsDigits (Nat.toDigits 10 n) :=
  ⟨Nat.toDigits_ne_nil, fun _ member => Nat.isDigit_of_mem_toDigits (by decide) (by decide) member⟩

theorem IsDigits.takeWhile_point {whole : List Char} (h : IsDigits whole) (rest : List Char) :
    (whole ++ '.' :: rest).takeWhile Char.isDigit = whole := by
  rw [List.takeWhile_append_of_pos h.digit, List.takeWhile_cons_of_neg (by decide), List.append_nil]

theorem IsDigits.dropWhile_point {whole : List Char} (h : IsDigits whole) (rest : List Char) :
    (whole ++ '.' :: rest).dropWhile Char.isDigit = '.' :: rest := by
  rw [List.dropWhile_append_of_pos h.digit, List.dropWhile_cons_of_neg (by decide)]

inductive FloatToken : List Char → Prop
  | decimal {negative : Bool} {whole fraction : List Char} :
    IsDigits whole → IsDigits fraction → FloatToken (signText negative ++ (whole ++ '.' :: fraction))
  | infinite {negative : Bool} : FloatToken (signText negative ++ "1.0e+INF".toList)
  | nan : FloatToken "0.0e+NaN".toList

theorem isDigits_padded (count n : Nat) :
    IsDigits (List.replicate count '0' ++ Nat.toDigits 10 n) := by
  have digits := isDigits_toDigits n
  refine ⟨List.append_ne_nil_of_right_ne_nil _ digits.ne_nil, ?_⟩
  intro c member
  rcases List.mem_append.mp member with zero | digit
  · rw [List.eq_of_mem_replicate zero]
    decide
  · exact digits.digit c digit

theorem magnitudeText_point (mantissa : Nat) (exponent : Int) :
    ∃ whole fraction, IsDigits whole ∧ IsDigits fraction ∧
      magnitudeText mantissa exponent = whole ++ '.' :: fraction := by
  unfold magnitudeText
  split
  · exact ⟨_, ['0'], isDigits_toDigits _, isDigits_padded 0 0, rfl⟩
  · exact ⟨_, _, isDigits_toDigits _, isDigits_padded _ _, rfl⟩

theorem floatToken_text (x : Binary64) : FloatToken x.text := by
  unfold text
  split
  · exact FloatToken.nan
  · exact FloatToken.infinite
  · rename_i mantissa exponent _
    rcases magnitudeText_point mantissa exponent with ⟨whole, fraction, before, after, shape⟩
    rw [shape]
    exact FloatToken.decimal before after

end ElispBridge.Binary64
