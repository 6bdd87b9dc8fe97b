import ElispBridge.Evaluation.Session
import ElispBridge.Proofs.Text.Framing
import ElispBridge.Proofs.Text.Numeral
/-!
The grammar of string literals with the meaning of every part. A literal is read if and only if it is of
the grammar, as what it means; any other text is reported as it stands. The digits of an escape of any length
are counted in a word, so which lengths a run may have is left open in the grammar: every positive one is
meant, and those that the count takes for zero are refused.
-/

namespace ElispBridge.Text.Quoted

def namedEscapes : List (Char × Char) :=
  [('n', '\n'), ('t', '\t'), ('r', '\r'), ('f', '\x0c'), ('a', '\x07'), ('b', '\x08'), ('v', '\x0b'),
    ('e', '\x1b'), ('d', '\x7f'), ('s', ' ')]

/-- The characters that do not stand for themselves after a backslash. -/
def escapeStarts : List Char := "ntrfabveds\n xuU01234567".toList

/-- `Escape counts u e rest`: after a backslash the text `u` means `e`, which may be nothing, where `rest`
comes next. What comes next matters to the runs of digits, which are as long as can be. The lengths that a
run of hexadecimal digits may have are given by `counts`. -/
inductive Escape (counts : Nat → Prop) : List Char → Option Char → List Char → Prop
  | named {letter c : Char} {rest : List Char} :
    (letter, c) ∈ namedEscapes → Escape counts [letter] (some c) rest
  | nothing {c : Char} {rest : List Char} : c = '\n' ∨ c = ' ' → Escape counts [c] none rest
  | octal {ds rest : List Char} {c : Char} : Numeral 8 ds c.toNat → ds ≠ [] → ds.length ≤ 3 →
    ds.length = 3 ∨ Stops 8 rest → Escape counts ds (some c) rest
  | hexRun {ds rest : List Char} {c : Char} : Numeral 16 ds c.toNat → counts ds.length → Stops 16 rest →
    Escape counts ('x' :: ds) (some c) rest
  | hexFour {ds rest : List Char} {c : Char} : Numeral 16 ds c.toNat → ds.length = 4 →
    Escape counts ('u' :: ds) (some c) rest
  | hexEight {ds rest : List Char} {c : Char} : Numeral 16 ds c.toNat → ds.length = 8 →
    Escape counts ('U' :: ds) (some c) rest
  | itself {c : Char} {rest : List Char} : c ∉ escapeStarts → Escape counts [c] (some c) rest

/-- The text between the quotes of a literal and what it means. -/
inductive Body (counts : Nat → Prop) : List Char → List Char → Prop
  | nil : Body counts [] []
  | plain {c : Char} {rest s : List Char} : c ≠ '"' → c ≠ '\\' → Body counts rest s →
    Body counts (c :: rest) (c :: s)
  | escape {u rest s : List Char} {e : Option Char} : Escape counts u e rest → Body counts rest s →
    Body counts ('\\' :: (u ++ rest)) (e.toList ++ s)

inductive IsLiteral (counts : Nat → Prop) : List Char → List Char → Prop
  | quotes {body s : List Char} : Body counts body s → IsLiteral counts ('"' :: (body ++ ['"'])) s

/-- The count of so many digits, which wraps around, is not zero. -/
def Counted (n : Nat) : Prop := n % 2 ^ 32 ≠ 0

/-- The text between the quotes comes to a run of digits that its count cannot hold. -/
inductive OverfilledBody : List Char → Prop
  | run {rest : List Char} : Overfills 0 0 rest → OverfilledBody ('\\' :: 'x' :: rest)
  | plain {c : Char} {rest : List Char} : c ≠ '"' → c ≠ '\\' → OverfilledBody rest →
    OverfilledBody (c :: rest)
  | escape {u rest : List Char} {e : Option Char} : Escape Counted u e rest → OverfilledBody rest →
    OverfilledBody ('\\' :: (u ++ rest))

inductive Overfilled : List Char → Prop
  | quotes {body : List Char} : OverfilledBody body → Overfilled ('"' :: (body ++ ['"']))

section Lengths

variable {p q : Nat → Prop}

theorem Escape.of_counts {u rest : List Char} {e : Option Char} (h : Escape p u e rest)
    (counts : ∀ n, n < u.length → p n → q n) : Escape q u e rest := by
  cases h with
  | named member => exact .named member
  | nothing blank => exact .nothing blank
  | octal run nonempty short stop => exact .octal run nonempty short stop
  | hexRun run counted stop => exact .hexRun run (counts _ (Nat.lt_succ_self _) counted) stop
  | hexFour run length => exact .hexFour run length
  | hexEight run length => exact .hexEight run length
  | itself start => exact .itself start

theorem Body.of_counts {body s : List Char} (h : Body p body s)
    (counts : ∀ n, n + 1 < body.length → p n → q n) : Body q body s := by
  induction h with
  | nil => exact .nil
  | plain quote backslash _ ih =>
    exact .plain quote backslash (ih fun n within => counts n (Nat.lt_succ_of_lt within))
  | escape unit _ ih =>
    simp only [List.length_cons, List.length_append] at counts
    exact .escape (unit.of_counts fun n within => counts n (by omega))
      (ih fun n within => counts n (by omega))

theorem IsLiteral.of_counts {l s : List Char} (h : IsLiteral p l s)
    (counts : ∀ n, n + 3 < l.length → p n → q n) : IsLiteral q l s := by
  rcases h with ⟨body⟩
  refine .quotes (body.of_counts fun n within => counts n ?_)
  simp only [List.length_cons, List.length_append, List.length_nil]
  omega

theorem pos_of_counted {n : Nat} (h : Counted n) : 0 < n := by
  rw [Counted] at h
  omega

/-- A literal that is too short for a run of `2 ^ 32` digits has no run that is counted wrongly. -/
theorem isLiteral_counted_iff {l s : List Char} (short : l.length < 2 ^ 32 + 4) :
    IsLiteral Counted l s ↔ IsLiteral (0 < ·) l s := by
  constructor
  · intro h
    exact h.of_counts fun n _ => pos_of_counted
  · intro h
    refine h.of_counts fun n within positive => ?_
    have bound : n < 2 ^ 32 := by omega
    rw [Counted, Nat.mod_eq_of_lt bound]
    exact Nat.pos_iff_ne_zero.mp positive

end Lengths

theorem namedEscape?_eq_some_iff {letter c : Char} :
    namedEscape? letter = some c ↔ (letter, c) ∈ namedEscapes := by
  have table : ∀ entry ∈ namedEscapes, namedEscape? entry.1 = some entry.2 := by decide
  constructor
  · intro h
    have letters : letter ∈ namedEscapes.map Prod.fst := by
      by_contra other
      have ne (entry : Char × Char) (member : entry ∈ namedEscapes) : letter ≠ entry.1 := by
        rintro rfl
        exact other (List.mem_map_of_mem member)
      simp only [namedEscapes, List.forall_mem_cons] at ne
      simp [namedEscape?, ne] at h
    obtain ⟨entry, member, rfl⟩ := List.mem_map.mp letters
    rw [table entry member, Option.some.injEq] at h
    rw [← h]
    exact member
  · intro h
    exact table _ h

theorem readHexEscape_eq_some_iff {s left : List Char} {e : Option Char} :
    readHexEscape s = some (e, left) ↔ ∃ ds, s = ds ++ left ∧ Counted ds.length ∧ Stops 16 left ∧
      ∃ c : Char, Numeral 16 ds c.toNat ∧ e = some c := by
  have run_iff {ds rest : List Char} {n : Nat} (run : Numeral 16 ds n) (stop : Stops 16 rest) :
      readHexEscape (ds ++ rest) = some (e, left) ↔
        Counted ds.length ∧ ∃ c : Char, c.toNat = n ∧ e = some c ∧ left = rest := by
    rw [readHexEscape_numeral run stop, Counted]
    split
    · rename_i wrapped
      simp only [wrapped, reduceCtorEq, ne_eq, not_true_eq_false, false_and]
    · rename_i counted
      rw [charOf?_word?, and_iff_right counted]
  constructor
  · intro h
    obtain ⟨ds, n, rest, rfl, run, stop⟩ := exists_run 16 s
    obtain ⟨counted, c, rfl, rfl, rfl⟩ := (run_iff run stop).mp h
    exact ⟨ds, rfl, counted, stop, c, run, rfl⟩
  · rintro ⟨ds, rfl, counted, stop, c, run, rfl⟩
    exact (run_iff run stop).mpr ⟨counted, c, rfl, rfl, rfl⟩

theorem charOf?_readHex {count : Nat} {s left : List Char} {e : Option Char} :
    charOf? (readHex count 0 s) = some (e, left) ↔ ∃ ds, s = ds ++ left ∧ ds.length = count ∧
      ∃ c : Char, Numeral 16 ds c.toNat ∧ e = some c := by
  have read_iff {ds rest : List Char} {n : Nat} (run : Numeral 16 ds n) :
      charOf? (readHex ds.length 0 (ds ++ rest)) = some (e, left) ↔
        ∃ c : Char, c.toNat = n ∧ e = some c ∧ left = rest := by
    rw [readHex_numeral run, UInt32.toNat_zero, Nat.zero_mul, Nat.zero_add, charOf?_word?]
  constructor
  · intro h
    cases read : readHex count 0 s with
    | none => rw [read] at h; cases h
    | some r =>
      obtain ⟨ds, n, rfl, rfl, run⟩ := numeral_of_readHex read
      obtain ⟨c, code, rfl, rfl⟩ := (read_iff run).mp h
      rw [← code] at run
      exact ⟨ds, rfl, rfl, c, run, rfl⟩
  · rintro ⟨ds, rfl, rfl, c, run, rfl⟩
    exact (read_iff run).mpr ⟨c, rfl, rfl, rfl⟩

/-- An octal escape has at most three digits, so what it writes always fits in the word. -/
theorem readEscape_octal {d n : Nat} {c : Char} {ds rest left : List Char} {e : Option Char}
    (digit : IsDigit 8 c d) (run : Numeral 8 ds n) (short : ds.length ≤ 2)
    (stop : ds.length = 2 ∨ Stops 8 rest) :
    readEscape c (ds ++ rest) = some (e, left) ↔
      ∃ c : Char, c.toNat = d * 8 ^ ds.length + n ∧ e = some c ∧ left = rest := by
  have small : d * 8 ^ ds.length + n < UInt32.size := by
    have bound : d * 8 ^ ds.length + n < 8 ^ (ds.length + 1) := (Numeral.cons digit run).lt
    have top : 8 ^ (ds.length + 1) ≤ 8 ^ 3 := Nat.pow_le_pow_right (by decide) (by omega)
    exact Nat.lt_of_lt_of_le bound (Nat.le_trans top (by decide))
  have word : word? (d * 8 ^ ds.length + n) = some (UInt32.ofNat (d * 8 ^ ds.length + n)) :=
    if_pos small
  rw [digit.eq_digitChar, readEscape_digitChar d _ digit.1, readOctal_numeral run short stop, ← charOf?_word?, word]
  rfl

theorem readEscape_itself {c : Char} (h : c ∉ escapeStarts) (rest : List Char) :
    readEscape c rest = some (some c, rest) := by
  have ne (special : Char) (member : special ∈ escapeStarts) : c ≠ special := by
    rintro rfl
    exact h member
  have name : namedEscape? c = none := by
    rw [Option.eq_none_iff_forall_ne_some]
    intro d named
    have starts : ∀ entry ∈ namedEscapes, entry.1 ∈ escapeStarts := by decide
    exact h (starts _ (namedEscape?_eq_some_iff.mp named))
  have digit : digit? 8 c = none := by
    rw [digit?_eq_none_iff]
    intro d digit
    have starts : ∀ d < 8, Nat.digitChar d ∈ escapeStarts := by decide
    rw [digit.eq_digitChar] at h
    exact h (starts d digit.1)
  simp only [readEscape, name, digit, ne '\n' (by decide), ne ' ' (by decide), ne 'x' (by decide),
    ne 'u' (by decide), ne 'U' (by decide), or_self, ↓reduceIte]

theorem escape_of_readEscape {c : Char} {rest left : List Char} {e : Option Char}
    (h : readEscape c rest = some (e, left)) :
    ∃ u, rest = u ++ left ∧ Escape Counted (c :: u) e left := by
  by_cases start : c ∉ escapeStarts
  · rw [readEscape_itself start] at h
    cases h
    exact ⟨[], rfl, Escape.itself start⟩
  by_cases x : c = 'x'
  · subst x
    obtain ⟨ds, rfl, counted, stop, d, run, rfl⟩ := readHexEscape_eq_some_iff.mp h
    exact ⟨ds, rfl, Escape.hexRun run counted stop⟩
  by_cases u : c = 'u'
  · subst u
    obtain ⟨ds, rfl, length, d, run, rfl⟩ := charOf?_readHex.mp h
    exact ⟨ds, rfl, Escape.hexFour run length⟩
  by_cases upperU : c = 'U'
  · subst upperU
    obtain ⟨ds, rfl, length, d, run, rfl⟩ := charOf?_readHex.mp h
    exact ⟨ds, rfl, Escape.hexEight run length⟩
  cases digit : digit? 8 c with
  | some d =>
    have digit := digit?_eq_some_iff.mp digit
    obtain ⟨ds, n, rest, rfl, run, short, stop⟩ := exists_octal 2 rest
    obtain ⟨b, code, rfl, rfl⟩ := (readEscape_octal digit run short stop).mp h
    have whole : Numeral 8 (c :: ds) b.toNat := numeral_cons.mpr ⟨d, n, digit, run, code⟩
    exact ⟨ds, rfl, Escape.octal whole (List.cons_ne_nil c ds) (Nat.succ_le_succ short)
      (stop.imp_left (congrArg Nat.succ))⟩
  | none =>
    have table : escapeStarts.all fun c => c = 'x' || c = 'u' || c = 'U' || (digit? 8 c).isSome ||
        (namedEscape? c).isSome || c = '\n' || c = ' ' := by decide
    have other := List.all_eq_true.mp table c (not_not.mp start)
    simp only [x, u, upperU, digit, decide_false, Option.isSome_none, Bool.false_or, Bool.or_eq_true,
      decide_eq_true_eq, or_assoc] at other
    rcases other with named | blank
    · obtain ⟨d, named⟩ := Option.isSome_iff_exists.mp named
      simp only [readEscape, named] at h
      cases h
      exact ⟨[], rfl, Escape.named (namedEscape?_eq_some_iff.mp named)⟩
    · have same : readEscape c rest = some (none, rest) := by rcases blank with rfl | rfl <;> rfl
      rw [same] at h
      cases h
      exact ⟨[], rfl, Escape.nothing blank⟩

theorem Escape.readEscape {c : Char} {u rest : List Char} {e : Option Char}
    (h : Escape Counted (c :: u) e rest) : readEscape c (u ++ rest) = some (e, rest) := by
  cases h with
  | named member =>
    simp only [Quoted.readEscape, namedEscape?_eq_some_iff.mpr member, List.nil_append]
  | nothing blank => rcases blank with rfl | rfl <;> rfl
  | octal run _ short stop =>
    obtain ⟨d, n, digit, run, code⟩ := numeral_cons.mp run
    exact (readEscape_octal digit run (Nat.le_of_succ_le_succ short) (stop.imp_left Nat.succ_inj.mp)).mpr
      ⟨_, code, rfl, rfl⟩
  | hexRun run counted stop =>
    exact readHexEscape_eq_some_iff.mpr ⟨u, rfl, counted, stop, _, run, rfl⟩
  | hexFour run length => exact charOf?_readHex.mpr ⟨u, rfl, length, _, run, rfl⟩
  | hexEight run length => exact charOf?_readHex.mpr ⟨u, rfl, length, _, run, rfl⟩
  | itself start => exact readEscape_itself start rest

theorem Escape.exists_cons {counts : Nat → Prop} {u rest : List Char} {e : Option Char}
    (h : Escape counts u e rest) : ∃ c u', u = c :: u' := by
  cases u with
  | nil =>
    cases h with
    | octal _ nonempty => exact absurd rfl nonempty
  | cons c u => exact ⟨c, u, rfl⟩

theorem body_of_decodeBody {body s : List Char} (h : decodeBody body = some s) : Body Counted body s := by
  fun_induction decodeBody body generalizing s with
  | case1 => cases h; exact Body.nil
  | case2 => cases h
  | case3 => cases h
  | case4 => cases h
  | case5 d text e left read _ ih =>
    obtain ⟨content, decoded, rfl⟩ := Option.map_eq_some_iff.mp h
    obtain ⟨u, rfl, unit⟩ := escape_of_readEscape read
    exact Body.escape unit (ih decoded)
  | case6 c text quote backslash ih =>
    obtain ⟨content, decoded, rfl⟩ := Option.map_eq_some_iff.mp h
    exact Body.plain quote backslash (ih decoded)

theorem Body.decodeBody {body s : List Char} (h : Body Counted body s) : decodeBody body = some s := by
  induction h with
  | nil => rw [Quoted.decodeBody]
  | plain quote backslash _ ih => rw [decodeBody_plain quote backslash, ih, Option.map_some]
  | @escape u rest s e unit _ ih =>
    obtain ⟨c, u, rfl⟩ := unit.exists_cons
    rw [List.cons_append, decodeBody_escape unit.readEscape, ih, Option.map_some]

theorem decode_eq_some_iff {l s : List Char} : decode l = some s ↔ IsLiteral Counted l s := by
  constructor
  · intro h
    obtain ⟨body, rfl, decoded⟩ := quotes_of_decode h
    exact IsLiteral.quotes (body_of_decodeBody decoded)
  · rintro ⟨body⟩
    rw [decode_quotes, body.decodeBody]

theorem overfilledBody_of_bodyOverflows {body : List Char} (h : bodyOverflows body = true) :
    OverfilledBody body := by
  have run {d : Char} {text : List Char} (h : (d = 'x' && hexRunOverflows 0 0 text) = true) :
      OverfilledBody ('\\' :: d :: text) := by
    rw [Bool.and_eq_true, decide_eq_true_eq] at h
    rw [h.1]
    exact .run ((hexRunOverflows_iff (by decide)).mp h.2)
  fun_induction bodyOverflows body with
  | case1 => cases h
  | case2 => cases h
  | case3 => cases h
  | case4 d text _ ih =>
    rcases Bool.or_eq_true_iff.mp h with here | later
    · exact run here
    · split at later
      · cases later
      · rename_i e left read
        obtain ⟨u, rfl, unit⟩ := escape_of_readEscape read
        exact .escape unit (ih _ _ read later)
  | case5 c text quote backslash ih => exact .plain quote backslash (ih h)

theorem OverfilledBody.bodyOverflows {body : List Char} (h : OverfilledBody body) :
    bodyOverflows body = true := by
  induction h with
  | run overfills =>
    have wraps : hexRunOverflows 0 0 _ = true := (hexRunOverflows_iff (by decide)).mpr overfills
    rw [Quoted.bodyOverflows, if_neg (by decide), if_pos rfl, wraps]
    rfl
  | plain quote backslash _ ih =>
    rw [Quoted.bodyOverflows.eq_def]
    simp only [quote, backslash, ↓reduceIte]
    exact ih
  | @escape u rest e unit _ ih =>
    obtain ⟨c, u, rfl⟩ := unit.exists_cons
    rw [List.cons_append, Quoted.bodyOverflows, if_neg (by decide), if_pos rfl, Bool.or_eq_true]
    right
    split
    · rename_i refused
      rw [unit.readEscape] at refused
      cases refused
    · rename_i accepted
      rw [unit.readEscape] at accepted
      cases accepted
      exact ih

theorem overflows_iff {l : List Char} : overflows l = true ↔ Overfilled l := by
  constructor
  · intro h
    cases l with
    | nil => cases h
    | cons c rest =>
      rw [overflows, Bool.and_eq_true, decide_eq_true_eq] at h
      rcases h with ⟨⟨rfl, last⟩, body⟩
      rcases List.getLast?_eq_some_iff.mp last with ⟨body, rfl⟩
      rw [List.dropLast_concat] at body
      exact .quotes (overfilledBody_of_bodyOverflows body)
  · rintro ⟨body⟩
    simp only [overflows, List.getLast?_append, List.getLast?_singleton, Option.some_or,
      List.dropLast_concat, and_self, decide_true, Bool.true_and]
    exact body.bodyOverflows

/-- The literal with a code of so many zeros. -/
def zerosLiteral (n : Nat) : List Char := '"' :: ('\\' :: 'x' :: List.replicate n '0' ++ ['"'])

theorem isLiteral_zeros {counts : Nat → Prop} {n : Nat} (counted : counts n) :
    IsLiteral counts (zerosLiteral n) ['\x00'] := by
  have run : Numeral 16 (List.replicate n '0') ('\x00').toNat := numeral_zeros n
  have length : counts (List.replicate n '0').length := by rwa [List.length_replicate]
  have body : Body counts ('\\' :: ('x' :: List.replicate n '0' ++ [])) ['\x00'] :=
    .escape (.hexRun run length (Stops.nil 16)) .nil
  rw [List.append_nil] at body
  exact .quotes body

theorem decode_zeros {n : Nat} (wraps : n % 2 ^ 32 = 0) : decode (zerosLiteral n) = none := by
  have refused : readEscape 'x' (List.replicate n '0') = none := by
    have escape : readEscape 'x' (List.replicate n '0') = readHexEscape (List.replicate n '0' ++ []) := by
      rw [List.append_nil]
      rfl
    rw [escape, readHexEscape_numeral (numeral_zeros n) (Stops.nil 16), List.length_replicate, if_pos wraps]
  rw [zerosLiteral, decode_quotes, decodeBody, if_neg (by decide), if_pos rfl]
  split
  · rfl
  · rename_i accepted
    rw [refused] at accepted
    cases accepted

theorem overfilled_zeros {n : Nat} (count : n = 2 ^ 31) : Overfilled (zerosLiteral n) := by
  refine .quotes (.run ⟨List.replicate n '0', [], 0, (List.append_nil _).symm, ?_, numeral_zeros n, ?_⟩)
  · rw [List.length_replicate, Nat.zero_add, count]
  · rw [UInt32.toNat_zero, Nat.zero_mul]
    decide

end ElispBridge.Text.Quoted

namespace ElispBridge

open Text.Quoted (IsLiteral Counted Overfilled decode_eq_some_iff isLiteral_counted_iff overflows_iff)

theorem readLiteral_eq_ok_iff {printed s : String} :
    readLiteral printed = .ok s ↔ Text.Quoted.decode printed.toList = some s.toList := by
  rw [readLiteral]
  cases Text.Quoted.decode printed.toList with
  | none => simp only [reduceCtorEq]
  | some content =>
    simp only [Except.ok.injEq, Option.some.injEq]
    rw [← String.toList_inj, String.toList_ofList]

theorem readLiteral_eq_error_iff {printed : String} :
    readLiteral printed = .error (.malformedOutput printed) ↔ Text.Quoted.decode printed.toList = none := by
  rw [readLiteral]
  cases Text.Quoted.decode printed.toList <;> simp only [reduceCtorEq]

/-- A text is read as a string exactly if it is a literal that means the string, with runs of digits whose
count, which wraps around, is not zero. A text that means nothing, and no other, is refused with a report that
holds all of it. For texts of less than `2 ^ 32 + 4` characters these are the literals with runs of any positive
length. Where sums are checked, reading does not come to an end exactly for the texts that come to a run of
`2 ^ 31` digits. -/
theorem readLiteral_iff_isLiteral (printed : String) :
    (∀ s : String, readLiteral printed = .ok s ↔ IsLiteral Counted printed.toList s.toList) ∧
    (readLiteral printed = .error (.malformedOutput printed) ↔
      ∀ s : String, ¬ IsLiteral Counted printed.toList s.toList) ∧
    (printed.toList.length < 2 ^ 32 + 4 → ∀ s : String,
      (readLiteral printed = .ok s ↔ IsLiteral (0 < ·) printed.toList s.toList)) ∧
    (Text.Quoted.overflows printed.toList = true ↔ Overfilled printed.toList) := by
  have read (s : String) : readLiteral printed = .ok s ↔ IsLiteral Counted printed.toList s.toList := by
    rw [readLiteral_eq_ok_iff, decode_eq_some_iff]
  refine ⟨read, ?_, ?_, overflows_iff⟩
  · rw [readLiteral_eq_error_iff, Option.eq_none_iff_forall_ne_some]
    simp only [ne_eq, decode_eq_some_iff]
    constructor
    · intro none s
      exact none s.toList
    · intro none s
      rw [← String.toList_ofList (l := s)]
      exact none (String.ofList s)
  · intro short s
    rw [read, isLiteral_counted_iff short]

/-- A literal of `2 ^ 32` zeros means a character but is reported as malformed, and where sums are checked half
as many bring reading to a stop. -/
theorem readLiteral_zeros :
    let printed := String.ofList (Text.Quoted.zerosLiteral (2 ^ 32))
    IsLiteral (0 < ·) printed.toList "\x00".toList ∧
      readLiteral printed = .error (.malformedOutput printed) ∧
      Text.Quoted.overflows (Text.Quoted.zerosLiteral (2 ^ 31)) = true := by
  intro printed
  have literal : printed.toList = Text.Quoted.zerosLiteral (2 ^ 32) := String.toList_ofList
  refine ⟨?_, ?_, overflows_iff.mpr (Text.Quoted.overfilled_zeros rfl)⟩
  · rw [literal]
    exact Text.Quoted.isLiteral_zeros (by decide)
  · rw [readLiteral_eq_error_iff, literal]
    exact Text.Quoted.decode_zeros (Nat.mod_self _)

end ElispBridge
