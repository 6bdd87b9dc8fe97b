import ElispBridge.Proofs.Text.Spelling
/-!
A literal at the start of a longer text. Its reader stops at the first quote that is not escaped and
agrees with the decoder of whole literals. So no content ends a written literal early or takes in what
follows it, and none brings a control character into the text.
-/

namespace ElispBridge.Text.Quoted

/-- The content of a literal whose opening quote has been read, and the text after its closing
quote. -/
def readBody : List Char → Option (List Char × List Char)
  | [] => none
  | c :: rest =>
    if c = '"' then some ([], rest)
    else if c = '\\' then
      match rest with
      | [] => none
      | d :: rest =>
        match _h : readEscape d rest with
        | none => none
        | some (e, rest) => (readBody rest).map fun (s, left) => (e.toList ++ s, left)
    else (readBody rest).map fun (s, left) => (c :: s, left)
termination_by s => s.length
decreasing_by
  · have := readEscape_length _h
    simp only [List.length_cons] at *
    omega
  · simp

theorem readBody_plain {c : Char} (quote : c ≠ '"') (backslash : c ≠ '\\') (rest : List Char) :
    readBody (c :: rest) = (readBody rest).map fun (s, left) => (c :: s, left) := by
  rw [readBody.eq_def]
  simp only [quote, backslash, ↓reduceIte]

theorem readBody_escape {d : Char} {rest left : List Char} {e : Option Char}
    (h : readEscape d rest = some (e, left)) :
    readBody ('\\' :: d :: rest) = (readBody left).map fun (s, left) => (e.toList ++ s, left) := by
  rw [readBody, if_neg (by decide), if_pos rfl]
  split
  · rename_i refused
    rw [h] at refused
    cases refused
  · rename_i accepted
    rw [h] at accepted
    cases accepted
    rfl

theorem readBody_quote (rest : List Char) : readBody ('"' :: rest) = some ([], rest) := by
  rw [readBody.eq_def]
  rfl

theorem Spells.readBody {u : List Char} {c : Char} (h : Spells u c) (rest : List Char) :
    readBody (u ++ rest) = (readBody rest).map fun (s, left) => (c :: s, left) := by
  cases h with
  | plain quote backslash => exact readBody_plain quote backslash rest
  | escaped read => exact readBody_escape (read rest)

theorem Spelled.readBody {body s : List Char} (h : Spelled body s) (rest : List Char) :
    readBody (body ++ '"' :: rest) = some (s, rest) := by
  induction h with
  | nil => exact readBody_quote rest
  | cons first _ ih => rw [List.append_assoc, first.readBody, ih, Option.map_some]

theorem digit?_quote : ∀ base ≤ 16, digit? base '"' = none := by decide

theorem readOctal_append_quote (limit code : Nat) (s rest : List Char) :
    readOctal limit code (s ++ '"' :: rest) =
      ((readOctal limit code s).1, (readOctal limit code s).2 ++ '"' :: rest) := by
  fun_induction readOctal limit code s with
  | case1 => rw [readOctal]
  | case2 => rw [List.nil_append, readOctal, digit?_quote 8 (by decide)]
  | case3 limit code c s d digit ih => rw [List.cons_append, readOctal, digit]; exact ih
  | case4 limit code c s digit => rw [List.cons_append, readOctal, digit]

theorem readHexRun_append_quote {count : Int32} {code : UInt32} {s : List Char}
    {r : Int32 × UInt32 × List Char} (h : readHexRun count code s = some r) (rest : List Char) :
    readHexRun count code (s ++ '"' :: rest) = some (r.1, r.2.1, r.2.2 ++ '"' :: rest) := by
  fun_induction readHexRun count code s with
  | case1 => cases h; rw [List.nil_append, readHexRun, digit?_quote 16 (by decide)]
  | case2 count code c s digit => cases h; rw [List.cons_append, readHexRun, digit]
  | case3 count code c s d digit next push ih =>
    rw [List.cons_append, readHexRun, digit]
    simp only [push]
    exact ih h
  | case4 => cases h

theorem readHex_append {count : Nat} {code : UInt32} {s : List Char} {r : UInt32 × List Char}
    (h : readHex count code s = some r) (rest : List Char) :
    readHex count code (s ++ rest) = some (r.1, r.2 ++ rest) := by
  fun_induction readHex count code s with
  | case1 => cases h; rw [readHex]
  | case2 => cases h
  | case3 => cases h
  | case4 count code c s d digit next push ih =>
    rw [List.cons_append, readHex, digit]
    simp only [push]
    exact ih h
  | case5 => cases h

theorem charOf?_append {read : Option (UInt32 × List Char)} {more : Option (UInt32 × List Char)}
    {r : Option Char × List Char} {rest : List Char} (h : charOf? read = some r)
    (extend : ∀ p, read = some p → more = some (p.1, p.2 ++ rest)) :
    charOf? more = some (r.1, r.2 ++ rest) := by
  cases read with
  | none => cases h
  | some p =>
    rcases Option.map_eq_some_iff.1 h with ⟨c, scalar, rfl⟩
    rw [extend p rfl]
    simp only [charOf?, scalar, Option.map_some]

theorem readHexEscape_append_quote {s : List Char} {r : Option Char × List Char}
    (h : readHexEscape s = some r) (rest : List Char) :
    readHexEscape (s ++ '"' :: rest) = some (r.1, r.2 ++ '"' :: rest) := by
  unfold readHexEscape at h
  split at h
  · cases h
  rename_i run
  split at h
  · cases h
  rename_i counted
  rw [readHexEscape, readHexRun_append_quote run rest]
  simp only [counted, ↓reduceIte]
  refine charOf?_append h fun p same => ?_
  cases same
  rfl

/-- What a backslash stands for does not change when a closing quote is put after the text. -/
theorem readEscape_append_quote {c : Char} {s : List Char} {r : Option Char × List Char}
    (h : readEscape c s = some r) (rest : List Char) :
    readEscape c (s ++ '"' :: rest) = some (r.1, r.2 ++ '"' :: rest) := by
  unfold readEscape at h ⊢
  split at h
  · cases h; rfl
  split at h
  · rename_i blank
    cases h
    rw [if_pos blank]
  rename_i blank
  rw [if_neg blank]
  split at h
  · rename_i x
    rw [if_pos x]
    exact readHexEscape_append_quote h rest
  rename_i x
  rw [if_neg x]
  split at h
  · rename_i u
    rw [if_pos u]
    exact charOf?_append h fun _ run => readHex_append run _
  rename_i u
  rw [if_neg u]
  split at h
  · rename_i u
    rw [if_pos u]
    exact charOf?_append h fun _ run => readHex_append run _
  rename_i u
  rw [if_neg u]
  split at h
  · refine charOf?_append h fun p run => ?_
    cases run
    simp only [readOctal_append_quote]
  · cases h; rfl

theorem readBody_of_decodeBody {body s : List Char} (h : decodeBody body = some s)
    (rest : List Char) : readBody (body ++ '"' :: rest) = some (s, rest) := by
  -- by the decoder's own recursion: a step that it refuses is none of the reader's concern
  fun_induction decodeBody body generalizing s with
  | case1 => cases h; exact readBody_quote rest
  | case2 => cases h
  | case3 => cases h
  | case4 => cases h
  | case5 d text e left read _ ih =>
    rcases Option.map_eq_some_iff.1 h with ⟨content, decoded, rfl⟩
    rw [List.cons_append, List.cons_append, readBody_escape (readEscape_append_quote read rest),
      ih decoded, Option.map_some]
  | case6 c text quote backslash ih =>
    rcases Option.map_eq_some_iff.1 h with ⟨content, decoded, rfl⟩
    rw [List.cons_append, readBody_plain quote backslash, ih decoded, Option.map_some]

theorem quotes_of_decode {l s : List Char} (h : decode l = some s) :
    ∃ body, l = '"' :: (body ++ ['"']) ∧ decodeBody body = some s := by
  cases l with
  | nil => cases h
  | cons c rest =>
    simp only [decode] at h
    split at h
    · rename_i quotes
      rcases quotes with ⟨rfl, last⟩
      rcases List.getLast?_eq_some_iff.mp last with ⟨body, rfl⟩
      rw [List.dropLast_concat] at h
      exact ⟨body, rfl, h⟩
    · cases h

/-- Two literals that start the same text are the same literal. -/
theorem eq_of_decode_append {l l' s s' rest rest' : List Char} (h : decode l = some s)
    (h' : decode l' = some s') (same : l ++ rest = l' ++ rest') : s = s' ∧ rest = rest' := by
  rcases quotes_of_decode h with ⟨body, rfl, decoded⟩
  rcases quotes_of_decode h' with ⟨body', rfl, decoded'⟩
  simp only [List.cons_append, List.append_assoc, List.nil_append, List.cons.injEq, true_and] at same
  have left := readBody_of_decodeBody decoded rest
  have right := readBody_of_decodeBody decoded' rest'
  rw [same, right] at left
  cases left
  exact ⟨rfl, rfl⟩

theorem isControl_eq_false_iff {c : Char} : isControl c = false ↔ 32 ≤ c.toNat ∧ c.toNat ≠ 127 := by
  simp only [isControl, Bool.or_eq_false_iff, decide_eq_false_iff_not, Nat.not_lt, beq_eq_false_iff_ne]

theorem escape_cases (c : Char) :
    (∃ letter ∈ ['"', '\\', 'n', 't', 'r', 'f'], escape c = ['\\', letter]) ∨
    (c.toNat < 512 ∧ escape c = '\\' :: octalDigits c.toNat) ∨
    (isControl c = false ∧ escape c = [c]) := by
  unfold escape
  split
  · exact .inl ⟨'"', by decide, rfl⟩
  split
  · exact .inl ⟨'\\', by decide, rfl⟩
  split
  · exact .inl ⟨'n', by decide, rfl⟩
  split
  · exact .inl ⟨'t', by decide, rfl⟩
  split
  · exact .inl ⟨'r', by decide, rfl⟩
  split
  · exact .inl ⟨'f', by decide, rfl⟩
  split
  · rename_i control
    have bound := toNat_lt_of_isControl control
    exact .inr (.inl ⟨by omega, rfl⟩)
  · rename_i plain
    exact .inr (.inr ⟨eq_false_of_ne_true plain, rfl⟩)

theorem isControl_octalDigits {code : Nat} (bound : code < 512) :
    ∀ d ∈ octalDigits code, isControl d = false := by
  have digits : ∀ d < 8, isControl (Nat.digitChar d) = false := by decide
  simp only [octalDigits, List.forall_mem_cons]
  exact ⟨digits _ (by omega), digits _ (by omega), digits _ (by omega), nofun⟩

theorem isControl_of_mem_escape {c d : Char} (h : d ∈ escape c) : isControl d = false := by
  rcases escape_cases c with ⟨letter, named, spelling⟩ | ⟨bound, spelling⟩ | ⟨plain, spelling⟩
  · have letters : ∀ e ∈ ['"', '\\', 'n', 't', 'r', 'f'], isControl e = false := by
      simp only [List.forall_mem_cons]
      exact ⟨rfl, rfl, rfl, rfl, rfl, rfl, nofun⟩
    rw [spelling] at h
    rcases List.mem_cons.mp h with rfl | h
    · rfl
    · rw [List.mem_singleton.mp h]
      exact letters letter named
  · rw [spelling] at h
    rcases List.mem_cons.mp h with rfl | digit
    · decide
    · exact isControl_octalDigits bound d digit
  · rw [spelling, List.mem_singleton] at h
    rw [h]
    exact plain

theorem isControl_of_mem_encode {s : List Char} {d : Char} (h : d ∈ encode s) : isControl d = false := by
  rcases List.mem_cons.mp h with rfl | h
  · decide
  rcases List.mem_append.mp h with body | h
  · rcases List.mem_flatMap.mp body with ⟨c, -, spelling⟩
    exact isControl_of_mem_escape spelling
  · rw [List.mem_singleton.mp h]
    decide

/-- A written literal ends by itself: a text that starts with one determines its content and what follows
it. Whatever the content, no control character is in it. -/
theorem encode_delimited (s s' following following' : List Char) :
    (encode s ++ following = encode s' ++ following' ↔ s = s' ∧ following = following') ∧
    (∀ c ∈ encode s, 32 ≤ c.toNat ∧ c.toNat ≠ 127) := by
  constructor
  · constructor
    · exact eq_of_decode_append (decode_encode s) (decode_encode s')
    · rintro ⟨rfl, rfl⟩
      rfl
  · intro c member
    exact isControl_eq_false_iff.mp (isControl_of_mem_encode member)

/-- A digit after an octal escape, and a backslash with a quote after the literal or inside it. -/
theorem encode_delimited_octal :
    '7' ∈ encode ['\x00', '7'] ∧ 32 ≤ '7'.toNat ∧ '7'.toNat ≠ 127 ∧
      encode ['\\'] ++ ['"'] ≠ encode ['\\', '"'] ++ [] := by
  have digit : '7' ∈ encode ['\x00', '7'] := by decide
  have printable := (encode_delimited ['\x00', '7'] [] [] []).2 '7' digit
  refine ⟨digit, printable.1, printable.2, ?_⟩
  intro same
  rcases (encode_delimited ['\\'] ['\\', '"'] ['"'] []).1.mp same with ⟨contents, -⟩
  cases contents

end ElispBridge.Text.Quoted
