import ElispBridge.Proofs.Text.Numeral
/-!
Hexadecimal code points in escapes. The word in which a run of digits is collected gives up in the middle
of the run once it would overflow; even so a run is read as the character of the number that all of it
writes, with no bound on that number, and is refused if no character has that code. But the digits are also
counted, only to know whether there are any, and leading zeros can make the count wrap around.
-/

namespace ElispBridge.Text

/-- The character of a code. Surrogates and numbers above U+10FFFF are the code of none. -/
def character? (n : Nat) : Option Char := if n.isValidChar then some (Char.ofNat n) else none

theorem character?_eq_some_iff {n : Nat} {c : Char} : character? n = some c ↔ c.toNat = n := by
  simp only [character?, Option.ite_none_right_eq_some, Option.some.injEq]
  constructor
  · rintro ⟨valid, rfl⟩
    rw [Char.ofNat, dif_pos valid]
    rfl
  · rintro rfl
    exact ⟨c.valid, c.ofNat_toNat⟩

/-- The number that digits write, each by its weight. -/
def number (base : Nat) : List Char → Nat
  | [] => 0
  | c :: ds => (digit? base c).getD 0 * base ^ ds.length + number base ds

theorem numeral_number {base : Nat} {ds : List Char} (h : ∀ c ∈ ds, (digit? base c).isSome = true) :
    Numeral base ds (number base ds) := by
  induction ds with
  | nil => exact Numeral.nil
  | cons c ds ih =>
    obtain ⟨first, others⟩ := List.forall_mem_cons.mp h
    obtain ⟨d, digit⟩ := Option.isSome_iff_exists.mp first
    rw [number, digit, Option.getD_some]
    exact Numeral.cons (digit?_eq_some_iff.mp digit) (ih others)

theorem Numeral.eq_number {base n : Nat} {ds : List Char} (h : Numeral base ds n) : n = number base ds := by
  induction h with
  | nil => rfl
  | cons digit _ ih => rw [number, digit?_eq_some_iff.mpr digit, Option.getD_some, ← ih]

namespace Quoted

/-- A word overflows far above the codes of characters, so no character is lost to the overflow. -/
theorem charOf?_word?_eq (n : Nat) (rest : List Char) :
    charOf? ((word? n).map fun code => (code, rest)) = (character? n).map fun c => (some c, rest) := by
  apply Option.ext
  rintro ⟨e, left⟩
  rw [charOf?_word?, Option.map_eq_some_iff]
  simp only [character?_eq_some_iff, Prod.mk.injEq]
  constructor
  · rintro ⟨c, code, rfl, rfl⟩
    exact ⟨c, code, rfl, rfl⟩
  · rintro ⟨c, code, rfl, rfl⟩
    exact ⟨c, code, rfl, rfl⟩

theorem readHexRun_zero {ds rest : List Char} {n : Nat} (run : Numeral 16 ds n) (stop : Stops 16 rest) :
    readHexRun 0 0 (ds ++ rest) =
      (word? n).map fun code => (Int32.ofNat ds.length, code, rest) := by
  rw [readHexRun_numeral run stop, UInt32.toNat_zero, Nat.zero_mul, Nat.zero_add, Int32.zero_add]

theorem readHex_zero {ds : List Char} {n : Nat} (run : Numeral 16 ds n) (rest : List Char) :
    readHex ds.length 0 (ds ++ rest) = (word? n).map fun code => (code, rest) := by
  rw [readHex_numeral run, UInt32.toNat_zero, Nat.zero_mul, Nat.zero_add]

theorem readEscape_hexRun {ds rest : List Char} {n : Nat} (run : Numeral 16 ds n) (stop : Stops 16 rest) :
    readEscape 'x' (ds ++ rest) =
      if ds.length % 2 ^ 32 = 0 then none else (character? n).map fun c => (some c, rest) := by
  have escape : readEscape 'x' (ds ++ rest) = readHexEscape (ds ++ rest) := rfl
  rw [escape, readHexEscape_numeral run stop, charOf?_word?_eq]

/-- Only the first characters, as many as are asked for, are looked at, and what is left is all the rest. -/
theorem readHex_take (count : Nat) (code : UInt32) (s : List Char) :
    readHex count code s = (readHex count code (s.take count)).map fun (code, _) => (code, s.drop count) := by
  fun_induction readHex count code s with
  | case1 => rfl
  | case2 => rfl
  | case3 count code c s digit => simp only [List.take_succ_cons, readHex, digit, Option.map_none]
  | case4 count code c s d digit next push ih =>
    simp only [List.take_succ_cons, List.drop_succ_cons, readHex, digit, push]
    exact ih
  | case5 count code c s d digit push =>
    simp only [List.take_succ_cons, readHex, digit, push, Option.map_none]

theorem hexRunOverflows_run {ds rest : List Char} (digits : ∀ c ∈ ds, (digit? 16 c).isSome = true)
    (stop : Stops 16 rest) :
    hexRunOverflows 0 0 (ds ++ rest) = true ↔
      2 ^ 31 ≤ ds.length ∧ number 16 (ds.take (2 ^ 31)) < 2 ^ 32 := by
  have overfills : hexRunOverflows 0 0 (ds ++ rest) = true ↔ Overfills 0 0 (ds ++ rest) :=
    hexRunOverflows_iff (by decide)
  rw [overfills]
  constructor
  · rintro ⟨front, behind, n, same, length, run, small⟩
    rw [Nat.zero_add] at length
    rw [UInt32.toNat_zero, Nat.zero_mul, Nat.zero_add, run.eq_number] at small
    have whole : ∃ more, ds = front ++ more := by
      rcases List.append_eq_append_iff.mp same with ⟨more, rfl, rfl⟩ | ⟨more, rfl, -⟩
      · cases more with
        | nil => exact ⟨[], by rw [List.append_nil, List.append_nil]⟩
        | cons c more =>
          -- a digit behind the run would belong to it
          have digit := run.digits c (List.mem_append_right ds List.mem_cons_self)
          rw [List.cons_append, stops_cons] at stop
          rw [stop] at digit
          cases digit
      · exact ⟨more, rfl⟩
    obtain ⟨more, rfl⟩ := whole
    rw [← length, List.take_left, List.length_append]
    exact ⟨Nat.le_add_right _ _, small⟩
  · rintro ⟨long, small⟩
    have front : ∀ c ∈ ds.take (2 ^ 31), (digit? 16 c).isSome = true := fun c member =>
      digits c (List.mem_of_mem_take member)
    refine ⟨ds.take (2 ^ 31), ds.drop (2 ^ 31) ++ rest, _, ?_, ?_, numeral_number front, ?_⟩
    · rw [← List.append_assoc, List.take_append_drop]
    · rw [List.length_take_of_le long, Nat.zero_add]
    · rw [UInt32.toNat_zero, Nat.zero_mul, Nat.zero_add]
      exact small

/-- After `x` a run of digits of any length is collected in the word exactly if its number fits in it. It is
read as the character of the number or, if there is none, refused, unless its length is a multiple of `2 ^ 32`,
where the count wraps around to zero and the run is refused though it has a character. Where sums are checked,
reading such a run does not come to an end from `2 ^ 31` digits on, if the word can take as many of them. Four
digits after `u` and eight after `U` are read as runs without a count, and no further characters are looked
at. -/
theorem readEscape_hex {ds : List Char} (digits : ∀ c ∈ ds, (digit? 16 c).isSome = true)
    (rest : List Char) :
    (Stops 16 rest →
      readHexRun 0 0 (ds ++ rest) =
        (word? (number 16 ds)).map (fun code => (Int32.ofNat ds.length, code, rest)) ∧
      readEscape 'x' (ds ++ rest) = (if ds.length % 2 ^ 32 = 0 then none
        else (character? (number 16 ds)).map fun c => (some c, rest)) ∧
      (readEscape 'x' (ds ++ rest) = (character? (number 16 ds)).map (fun c => (some c, rest)) ↔
        (ds.length % 2 ^ 32 = 0 → character? (number 16 ds) = none)) ∧
      (hexRunOverflows 0 0 (ds ++ rest) = true ↔
        2 ^ 31 ≤ ds.length ∧ number 16 (ds.take (2 ^ 31)) < 2 ^ 32)) ∧
    (ds.length = 4 →
      readHex 4 0 (ds ++ rest) = (word? (number 16 ds)).map (fun code => (code, rest)) ∧
      readEscape 'u' (ds ++ rest) = (character? (number 16 ds)).map fun c => (some c, rest)) ∧
    (ds.length = 8 →
      readHex 8 0 (ds ++ rest) = (word? (number 16 ds)).map (fun code => (code, rest)) ∧
      readEscape 'U' (ds ++ rest) = (character? (number 16 ds)).map fun c => (some c, rest)) ∧
    ∀ count s, readHex count 0 s =
      (readHex count 0 (s.take count)).map fun (code, _) => (code, s.drop count) := by
  have run := numeral_number digits
  have fixed := readHex_zero run rest
  refine ⟨?_, ?_, ?_, fun count => readHex_take count 0⟩
  · intro stop
    refine ⟨readHexRun_zero run stop, readEscape_hexRun run stop, ?_, hexRunOverflows_run digits stop⟩
    rw [readEscape_hexRun run stop]
    split
    · rename_i wraps
      rw [eq_comm, Option.map_eq_none_iff, forall_prop_of_true wraps]
    · rename_i counted
      exact iff_of_true rfl fun wraps => absurd wraps counted
  · intro four
    have escape : readEscape 'u' (ds ++ rest) = charOf? (readHex 4 0 (ds ++ rest)) := rfl
    rw [four] at fixed
    rw [escape, fixed, charOf?_word?_eq]
    exact ⟨rfl, rfl⟩
  · intro eight
    have escape : readEscape 'U' (ds ++ rest) = charOf? (readHex 8 0 (ds ++ rest)) := rfl
    rw [eight] at fixed
    rw [escape, fixed, charOf?_word?_eq]
    exact ⟨rfl, rfl⟩

/-- A number that would be `'A'` if its upper bits were dropped, a surrogate, and a letter in as many digits as
`U` takes with one more after them. -/
theorem readEscape_hex_overflow :
    (∀ c ∈ "100000041".toList, (digit? 16 c).isSome = true) ∧ Stops 16 ['g'] ∧
      readEscape 'x' ("100000041".toList ++ ['g']) = none ∧
      readEscape 'u' ("dC00".toList ++ ['0']) = none ∧
      readEscape 'U' ("00000041".toList ++ ['0']) = some (some 'A', ['0']) := by
  have digits : ∀ c ∈ "100000041".toList, (digit? 16 c).isSome = true := List.all_eq_true.mp (by decide)
  have four : ∀ c ∈ "dC00".toList, (digit? 16 c).isSome = true := List.all_eq_true.mp (by decide)
  have eight : ∀ c ∈ "00000041".toList, (digit? 16 c).isSome = true := List.all_eq_true.mp (by decide)
  have stop : Stops 16 ['g'] := stops_cons.mpr (by decide)
  have large := ((readEscape_hex digits ['g']).1 stop).2.1
  have surrogate := ((readEscape_hex four ['0']).2.1 (by decide)).2
  have letter := ((readEscape_hex eight ['0']).2.2.1 (by decide)).2
  exact ⟨digits, stop, large, surrogate, letter⟩

theorem readEscape_zeros {n : Nat} (wraps : n % 2 ^ 32 = 0) {rest : List Char} (stop : Stops 16 rest) :
    readEscape 'x' (List.replicate n '0' ++ rest) = none := by
  rw [readEscape_hexRun (numeral_zeros n) stop, List.length_replicate, if_pos wraps]

theorem character?_zeros (n : Nat) : character? (number 16 (List.replicate n '0')) = some '\x00' := by
  rw [← (numeral_zeros n).eq_number]
  rfl

theorem hexRunOverflows_zeros (rest : List Char) :
    hexRunOverflows 0 0 (List.replicate (2 ^ 31) '0' ++ rest) = true := by
  have overfills : Overfills 0 0 (List.replicate (2 ^ 31) '0' ++ rest) := by
    refine ⟨_, rest, 0, rfl, ?_, numeral_zeros _, ?_⟩
    · rw [List.length_replicate, Nat.zero_add]
    · rw [UInt32.toNat_zero, Nat.zero_mul]
      decide
  exact (hexRunOverflows_iff (by decide)).mpr overfills

/-- `2 ^ 32` zeros write the code of a character but are refused, and where sums are checked half as many bring
reading to a stop. -/
theorem readEscape_hex_zeros :
    let ds := List.replicate (2 ^ 32) '0'
    (∀ c ∈ ds, (digit? 16 c).isSome = true) ∧ ds ≠ [] ∧ Stops 16 ['"'] ∧
      character? (number 16 ds) = some '\x00' ∧ readEscape 'x' (ds ++ ['"']) = none ∧
      hexRunOverflows 0 0 (List.replicate (2 ^ 31) '0' ++ ['"']) = true := by
  have stop : Stops 16 ['"'] := stops_cons.mpr (by decide)
  refine ⟨(numeral_zeros _).digits, ?_, stop, character?_zeros _, readEscape_zeros (Nat.mod_self _) stop,
    hexRunOverflows_zeros _⟩
  intro empty
  have length := congrArg List.length empty
  rw [List.length_replicate] at length
  cases length

end Quoted

end ElispBridge.Text
