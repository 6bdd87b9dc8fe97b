import ElispBridge.Text.Quoted
import Mathlib.Tactic.Ring
/-!
Runs of digits and the numbers they write. The readers of codes keep a 32-bit word and give up once it
would overflow; what they accept and the code they find are those of the unbounded number. The count of the
digits is another word, and that one wraps around.
-/

namespace ElispBridge.Text

def lowerDigits : List Char := "0123456789abcdef".toList

def upperDigits : List Char := "0123456789ABCDEF".toList

def IsDigit (base : Nat) (c : Char) (d : Nat) : Prop :=
  d < base ∧ (lowerDigits[d]? = some c ∨ upperDigits[d]? = some c)

/-- The digits write the number, each by its weight. -/
inductive Numeral (base : Nat) : List Char → Nat → Prop
  | nil : Numeral base [] 0
  | cons {c : Char} {ds : List Char} {d n : Nat} :
    IsDigit base c d → Numeral base ds n → Numeral base (c :: ds) (d * base ^ ds.length + n)

/-- No digit of the base goes on with a run before this text. -/
def Stops (base : Nat) (s : List Char) : Prop := ∀ c ∈ s.head?, ∀ d, ¬ IsDigit base c d

theorem IsDigit.eq_digitChar {c : Char} {d : Nat} (h : IsDigit 8 c d) : c = Nat.digitChar d := by
  have table : ∀ d < 8, lowerDigits[d]? = some (Nat.digitChar d) ∧
      upperDigits[d]? = some (Nat.digitChar d) := by decide
  rcases table d h.1 with ⟨lower, upper⟩
  rcases h.2 with digit | digit
  · exact Option.some.inj (digit.symm.trans lower)
  · exact Option.some.inj (digit.symm.trans upper)

theorem digitValue?_of_forms {c : Char} {d : Nat}
    (h : lowerDigits[d]? = some c ∨ upperDigits[d]? = some c) : digitValue? c = some d := by
  have bound : d < 16 := by
    rcases h with h | h <;> exact (List.getElem?_eq_some_iff.mp h).1
  have table : ∀ d < 16, lowerDigits[d]?.map digitValue? = some (some d) ∧
      upperDigits[d]?.map digitValue? = some (some d) := by decide
  rcases table d bound with ⟨lower, upper⟩
  rcases h with h | h
  · rw [h] at lower
    exact Option.some.inj lower
  · rw [h] at upper
    exact Option.some.inj upper

theorem forms_of_digitValue? {c : Char} {d : Nat} (h : digitValue? c = some d) :
    lowerDigits[d]? = some c ∨ upperDigits[d]? = some c := by
  have small : c.toNat < 103 := by
    by_contra large
    have above (top : Char) (bound : top.toNat < 103) : ¬ c ≤ top := by
      intro le
      have codes : c.toNat ≤ top.toNat := le
      omega
    simp [digitValue?, above '9' (by decide), above 'f' (by decide), above 'F' (by decide)] at h
  have table : ∀ n < 103, ∀ d ∈ digitValue? (Char.ofNat n),
      lowerDigits[d]? = some (Char.ofNat n) ∨ upperDigits[d]? = some (Char.ofNat n) := by decide
  have code := Char.ofNat_toNat c
  have forms := table c.toNat small d (by rwa [code])
  rwa [code] at forms

theorem digit?_eq_some_iff {base : Nat} {c : Char} {d : Nat} :
    digit? base c = some d ↔ IsDigit base c d := by
  simp only [digit?, Option.filter_eq_some_iff, decide_eq_true_eq, IsDigit]
  constructor
  · rintro ⟨value, bound⟩
    exact ⟨bound, forms_of_digitValue? value⟩
  · rintro ⟨bound, forms⟩
    exact ⟨digitValue?_of_forms forms, bound⟩

theorem digit?_eq_none_iff {base : Nat} {c : Char} :
    digit? base c = none ↔ ∀ d, ¬ IsDigit base c d := by
  simp only [Option.eq_none_iff_forall_ne_some, ne_eq, digit?_eq_some_iff]

theorem Stops.nil (base : Nat) : Stops base [] := by
  intro c member
  cases member

theorem stops_cons {base : Nat} {c : Char} {s : List Char} :
    Stops base (c :: s) ↔ digit? base c = none := by
  rw [digit?_eq_none_iff]
  constructor
  · intro stop
    exact stop c rfl
  · intro none d member
    cases member
    exact none

/-- Every text starts with one longest run of digits, perhaps of none. -/
theorem exists_run (base : Nat) (s : List Char) :
    ∃ ds n rest, s = ds ++ rest ∧ Numeral base ds n ∧ Stops base rest := by
  induction s with
  | nil => exact ⟨[], 0, [], rfl, Numeral.nil, Stops.nil base⟩
  | cons c s ih =>
    cases digit : digit? base c with
    | none => exact ⟨[], 0, c :: s, rfl, Numeral.nil, stops_cons.mpr digit⟩
    | some d =>
      obtain ⟨ds, n, rest, rfl, run, stop⟩ := ih
      exact ⟨c :: ds, _, rest, rfl, Numeral.cons (digit?_eq_some_iff.mp digit) run, stop⟩

theorem numeral_cons {base k : Nat} {c : Char} {ds : List Char} :
    Numeral base (c :: ds) k ↔
      ∃ d n, IsDigit base c d ∧ Numeral base ds n ∧ k = d * base ^ ds.length + n := by
  constructor
  · intro h
    cases h with
    | cons digit run => exact ⟨_, _, digit, run, rfl⟩
  · rintro ⟨d, n, digit, run, rfl⟩
    exact Numeral.cons digit run

theorem Numeral.digit?_isSome {base n : Nat} {c : Char} {ds : List Char}
    (h : Numeral base (c :: ds) n) : (digit? base c).isSome = true := by
  obtain ⟨d, _, digit, _, _⟩ := numeral_cons.mp h
  rw [digit?_eq_some_iff.mpr digit]
  rfl

theorem Numeral.lt {base n : Nat} {ds : List Char} (h : Numeral base ds n) : n < base ^ ds.length := by
  induction h with
  | nil => exact Nat.one_pos
  | @cons c ds d n digit _ ih =>
    have bound : d + 1 ≤ base := digit.1
    calc d * base ^ ds.length + n < d * base ^ ds.length + base ^ ds.length := Nat.add_lt_add_left ih _
      _ = (d + 1) * base ^ ds.length := (Nat.succ_mul _ _).symm
      _ ≤ base * base ^ ds.length := Nat.mul_le_mul_right _ bound
      _ = base ^ (c :: ds).length := (Nat.pow_succ').symm

theorem Numeral.digits {base n : Nat} {ds : List Char} (h : Numeral base ds n) :
    ∀ c ∈ ds, (digit? base c).isSome = true := by
  induction h with
  | nil => exact fun _ member => nomatch member
  | cons digit run ih => exact List.forall_mem_cons.mpr ⟨(Numeral.cons digit run).digit?_isSome, ih⟩

theorem numeral_zeros (k : Nat) : Numeral 16 (List.replicate k '0') 0 := by
  induction k with
  | zero => exact .nil
  | succ k ih =>
    have digit : IsDigit 16 '0' 0 := ⟨by decide, .inl rfl⟩
    have run := Numeral.cons digit ih
    rwa [Nat.zero_mul, Nat.add_zero] at run

/-- A number as a word, unless it is too large. -/
def word? (n : Nat) : Option UInt32 := if n < UInt32.size then some (UInt32.ofNat n) else none

theorem word?_toNat (code : UInt32) : word? code.toNat = some code := by
  rw [word?, if_pos code.toNat_lt_size, UInt32.ofNat_toNat]

theorem toNat_of_word? {n : Nat} {code : UInt32} (h : word? n = some code) : code.toNat = n := by
  simp only [word?, Option.ite_none_right_eq_some, Option.some.injEq] at h
  obtain ⟨small, rfl⟩ := h
  exact UInt32.toNat_ofNat_of_lt small

theorem word?_eq_none {n m : Nat} (h : word? n = none) (le : n ≤ m) : word? m = none := by
  simp only [word?, ite_eq_right_iff, reduceCtorEq, imp_false] at h ⊢
  omega

theorem pushDigit?_eq (base : Nat) (code : UInt32) (digit : Nat) :
    pushDigit? base code digit = word? (code.toNat * base + digit) := rfl

/-- What a run of digits adds to the number before it. -/
theorem le_shifted (base : Nat) {value k n : Nat} (positive : 0 < base) :
    value ≤ value * base ^ k + n :=
  Nat.le_add_right_of_le (Nat.le_mul_of_pos_right _ (Nat.pow_pos positive))

theorem shifted_cons (base value d n k : Nat) :
    value * base ^ (k + 1) + (d * base ^ k + n) = (value * base + d) * base ^ k + n := by
  rw [Nat.pow_succ']
  ring

section Counts

theorem wrapped_eq_iff {k m : Nat} : Int32.ofNat k = Int32.ofNat m ↔ k % 2 ^ 32 = m % 2 ^ 32 := by
  rw [← Int32.toBitVec_inj]
  show BitVec.ofNat 32 k = BitVec.ofNat 32 m ↔ _
  rw [← BitVec.toNat_inj, BitVec.toNat_ofNat, BitVec.toNat_ofNat]

theorem wrapped_eq_zero_iff {k : Nat} : Int32.ofNat k = 0 ↔ k % 2 ^ 32 = 0 := by
  have zero : (0 : Int32) = Int32.ofNat 0 := rfl
  rw [zero, wrapped_eq_iff, Nat.zero_mod]

theorem wrapped_eq_maxValue_iff {k : Nat} (bound : k < 2 ^ 31) :
    Int32.ofNat k = Int32.maxValue ↔ k + 1 = 2 ^ 31 := by
  have top : Int32.maxValue = Int32.ofNat (2 ^ 31 - 1) := by decide
  rw [top, wrapped_eq_iff]
  omega

theorem add_wrapped (count : Int32) (k : Nat) :
    count + 1 + Int32.ofNat k = count + Int32.ofNat (k + 1) := by
  have one : Int32.ofNat 1 = 1 := rfl
  rw [Nat.add_comm k 1, Int32.ofNat_add, one, Int32.add_assoc]

end Counts

namespace Quoted

/-- The word is pushed digit by digit, and once it would overflow so does the number of the whole run. The
count has no such limit. -/
theorem readHexRun_numeral {ds rest : List Char} {n : Nat} (run : Numeral 16 ds n) (stop : Stops 16 rest)
    (count : Int32) (code : UInt32) :
    readHexRun count code (ds ++ rest) =
      (word? (code.toNat * 16 ^ ds.length + n)).map fun code =>
        (count + Int32.ofNat ds.length, code, rest) := by
  induction run generalizing count code with
  | nil =>
    have same : count + Int32.ofNat 0 = count := Int32.add_zero count
    rw [List.nil_append, List.length_nil, Nat.pow_zero, Nat.mul_one, Nat.add_zero, word?_toNat, same]
    cases rest with
    | nil => rfl
    | cons c rest => rw [readHexRun, stops_cons.mp stop]; rfl
  | @cons c ds d n digit _ ih =>
    rw [List.cons_append, readHexRun, digit?_eq_some_iff.mpr digit, List.length_cons, shifted_cons,
      ← add_wrapped]
    simp only [pushDigit?_eq]
    cases push : word? (code.toNat * 16 + d) with
    | none => rw [word?_eq_none push (le_shifted 16 (by decide))]; rfl
    | some next => rw [← toNat_of_word? push]; exact ih (count + 1) next

/-- The text goes on with the digits that bring a count of `k` to `2 ^ 31`, and with them the code still fits
in its word. -/
def Overfills (k : Nat) (code : UInt32) (s : List Char) : Prop :=
  ∃ ds rest n, s = ds ++ rest ∧ k + ds.length = 2 ^ 31 ∧ Numeral 16 ds n ∧
    code.toNat * 16 ^ ds.length + n < UInt32.size

theorem overfills_full (code : UInt32) (s : List Char) : Overfills (2 ^ 31) code s := by
  refine ⟨[], s, 0, rfl, rfl, Numeral.nil, ?_⟩
  rw [List.length_nil, Nat.pow_zero, Nat.mul_one]
  exact code.toNat_lt_size

theorem overfills_cons {k : Nat} (bound : k < 2 ^ 31) {code : UInt32} {c : Char} {s : List Char} :
    Overfills k code (c :: s) ↔
      ∃ d, IsDigit 16 c d ∧ ∃ next, word? (code.toNat * 16 + d) = some next ∧ Overfills (k + 1) next s := by
  constructor
  · rintro ⟨ds, rest, n, same, length, run, small⟩
    cases ds with
    | nil => rw [List.length_nil] at length; omega
    | cons c' ds =>
      cases same
      obtain ⟨d, m, digit, tail, rfl⟩ := numeral_cons.mp run
      rw [List.length_cons, shifted_cons] at small
      have fits : code.toNat * 16 + d < UInt32.size :=
        Nat.lt_of_le_of_lt (le_shifted 16 (by decide)) small
      refine ⟨d, digit, _, if_pos fits, ds, rest, m, rfl, ?_, tail, ?_⟩
      · rw [← length, List.length_cons]
        omega
      · rwa [toNat_of_word? (if_pos fits)]
  · rintro ⟨d, digit, next, push, ds, rest, n, rfl, length, run, small⟩
    refine ⟨c :: ds, rest, _, rfl, ?_, Numeral.cons digit run, ?_⟩
    · rw [← length, List.length_cons]
      omega
    · rw [List.length_cons, shifted_cons, ← toNat_of_word? push]
      exact small

/-- The count wraps around with the digit that makes it `2 ^ 31`, if no digit up to there is refused. -/
theorem hexRunOverflows_iff {s : List Char} {k : Nat} (bound : k < 2 ^ 31) {code : UInt32} :
    hexRunOverflows (Int32.ofNat k) code s = true ↔ Overfills k code s := by
  induction s generalizing k code with
  | nil =>
    simp only [hexRunOverflows, Bool.false_eq_true, false_iff]
    rintro ⟨ds, rest, n, same, length, -⟩
    rw [(List.append_eq_nil_iff.mp same.symm).1, List.length_nil] at length
    omega
  | cons c s ih =>
    rw [hexRunOverflows, overfills_cons bound]
    cases digit : digit? 16 c with
    | none =>
      simp only [Bool.false_eq_true, false_iff]
      rintro ⟨d, isDigit, -⟩
      exact digit?_eq_none_iff.mp digit d isDigit
    | some d =>
      have unique {d' : Nat} : IsDigit 16 c d' ↔ d' = d := by
        rw [← digit?_eq_some_iff, digit, Option.some.injEq, eq_comm]
      simp only [unique, exists_eq_left, pushDigit?_eq]
      cases push : word? (code.toNat * 16 + d) with
      | none => simp only [Bool.false_eq_true, reduceCtorEq, false_and, exists_false]
      | some next =>
        have step : Int32.ofNat k + 1 = Int32.ofNat (k + 1) := (Int32.ofNat_add k 1).symm
        simp only [Option.some.injEq, exists_eq_left', Bool.or_eq_true, beq_iff_eq,
          wrapped_eq_maxValue_iff bound, step]
        by_cases last : k + 1 = 2 ^ 31
        · rw [last]
          exact iff_of_true (.inl rfl) (overfills_full next s)
        · rw [ih (by omega), or_iff_right last]

theorem readHexEscape_numeral {ds rest : List Char} {n : Nat} (run : Numeral 16 ds n)
    (stop : Stops 16 rest) :
    readHexEscape (ds ++ rest) = if ds.length % 2 ^ 32 = 0 then none
      else charOf? ((word? n).map fun code => (code, rest)) := by
  rw [readHexEscape, readHexRun_numeral run stop, UInt32.toNat_zero, Nat.zero_mul, Nat.zero_add]
  cases word? n with
  | none => simp only [Option.map_none, charOf?, ite_self]
  | some code =>
    simp only [Option.map_some, Int32.zero_add, wrapped_eq_zero_iff]

theorem readHex_numeral {ds : List Char} {n : Nat} (run : Numeral 16 ds n) (code : UInt32)
    (rest : List Char) : readHex ds.length code (ds ++ rest) =
      (word? (code.toNat * 16 ^ ds.length + n)).map fun code => (code, rest) := by
  induction run generalizing code with
  | nil =>
    rw [List.nil_append, List.length_nil, Nat.pow_zero, Nat.mul_one, Nat.add_zero, word?_toNat, readHex]
    rfl
  | @cons c ds d n digit _ ih =>
    rw [List.cons_append, List.length_cons, readHex, digit?_eq_some_iff.mpr digit, shifted_cons]
    simp only [pushDigit?_eq]
    cases push : word? (code.toNat * 16 + d) with
    | none => rw [word?_eq_none push (le_shifted 16 (by decide))]; rfl
    | some next => rw [← toNat_of_word? push]; exact ih next

theorem numeral_of_readHex {count : Nat} {code : UInt32} {s : List Char} {r : UInt32 × List Char}
    (h : readHex count code s = some r) :
    ∃ ds n, s = ds ++ r.2 ∧ ds.length = count ∧ Numeral 16 ds n := by
  fun_induction readHex count code s with
  | case1 => cases h; exact ⟨[], 0, rfl, rfl, Numeral.nil⟩
  | case2 => cases h
  | case3 => cases h
  | case4 count code c s d digit next push ih =>
    obtain ⟨ds, n, rfl, length, run⟩ := ih h
    exact ⟨c :: ds, _, rfl, congrArg Nat.succ length, Numeral.cons (digit?_eq_some_iff.mp digit) run⟩
  | case5 => cases h

theorem readOctal_numeral {ds rest : List Char} {n : Nat} (run : Numeral 8 ds n) {limit : Nat}
    (short : ds.length ≤ limit) (stop : ds.length = limit ∨ Stops 8 rest) (code : Nat) :
    readOctal limit code (ds ++ rest) = (code * 8 ^ ds.length + n, rest) := by
  induction run generalizing code limit with
  | nil =>
    rw [List.nil_append, List.length_nil, Nat.pow_zero, Nat.mul_one, Nat.add_zero]
    rcases stop with rfl | stop
    · rw [List.length_nil, readOctal]
    cases limit with
    | zero => rw [readOctal]
    | succ limit =>
      cases rest with
      | nil => rw [readOctal]
      | cons c rest => rw [readOctal, stops_cons.mp stop]
  | @cons c ds d n digit _ ih =>
    cases limit with
    | zero => cases short
    | succ limit =>
      have tail : ds.length = limit ∨ Stops 8 rest := stop.imp_left Nat.succ_inj.mp
      rw [List.cons_append, readOctal, digit?_eq_some_iff.mpr digit, List.length_cons, shifted_cons]
      exact ih (Nat.le_of_succ_le_succ short) tail (code * 8 + d)

theorem exists_octal (limit : Nat) (s : List Char) :
    ∃ ds n rest, s = ds ++ rest ∧ Numeral 8 ds n ∧ ds.length ≤ limit ∧
      (ds.length = limit ∨ Stops 8 rest) := by
  induction limit generalizing s with
  | zero => exact ⟨[], 0, s, rfl, Numeral.nil, Nat.le_refl 0, .inl rfl⟩
  | succ limit ih =>
    cases s with
    | nil => exact ⟨[], 0, [], rfl, Numeral.nil, Nat.zero_le _, .inr (Stops.nil 8)⟩
    | cons c s =>
      cases digit : digit? 8 c with
      | none => exact ⟨[], 0, c :: s, rfl, Numeral.nil, Nat.zero_le _, .inr (stops_cons.mpr digit)⟩
      | some d =>
        obtain ⟨ds, n, rest, rfl, run, short, stop⟩ := ih s
        exact ⟨c :: ds, _, rest, rfl, Numeral.cons (digit?_eq_some_iff.mp digit) run,
          Nat.succ_le_succ short, stop.imp_left (congrArg Nat.succ)⟩

theorem charOf?_word? {n : Nat} {rest left : List Char} {e : Option Char} :
    charOf? ((word? n).map fun code => (code, rest)) = some (e, left) ↔
      ∃ c : Char, c.toNat = n ∧ e = some c ∧ left = rest := by
  constructor
  · intro h
    cases word : word? n with
    | none => rw [word] at h; cases h
    | some code =>
      rw [word] at h
      obtain ⟨c, scalar, same⟩ := Option.map_eq_some_iff.mp h
      cases same
      refine ⟨c, ?_, rfl, rfl⟩
      rw [← toNat_of_word? word, ← val_of_scalar? scalar]
      rfl
  · rintro ⟨c, rfl, rfl, rfl⟩
    have word : word? c.toNat = some c.val := word?_toNat c.val
    rw [word]
    simp only [Option.map_some, charOf?, scalar?_val]

end Quoted

end ElispBridge.Text
