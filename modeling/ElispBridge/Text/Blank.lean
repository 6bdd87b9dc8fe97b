/-!
White space as the Unicode property of that name lists it, and trimming by it.
-/

namespace ElispBridge.Text

/-- The ranges of the property White_Space, by code point, ends included. -/
def blankRanges : List (Nat × Nat) :=
  [(0x9, 0xD), (0x20, 0x20), (0x85, 0x85), (0xA0, 0xA0), (0x1680, 0x1680), (0x2000, 0x200A),
    (0x2028, 0x2029), (0x202F, 0x202F), (0x205F, 0x205F), (0x3000, 0x3000)]

def isBlank (c : Char) : Bool :=
  blankRanges.any fun (low, high) => low ≤ c.toNat && c.toNat ≤ high

def trim (s : List Char) : List Char :=
  ((s.dropWhile isBlank).reverse.dropWhile isBlank).reverse

example : isBlank '\u200b' = false ∧ isBlank '\u001c' = false ∧ isBlank '\u3000' = true := by decide

example : trim "  a b\u00a0\n".toList = "a b".toList := by decide

end ElispBridge.Text
