import ElispBridge.Text.Diagnostic
/-!
Paths of files. A path is any bytes; one that is UTF-8 has a text.
-/

namespace ElispBridge

structure Path where
  bytes : ByteArray
deriving Inhabited

namespace Path

theorem eq_of_data {p q : Path} (h : p.bytes.data = q.bytes.data) : p = q := by
  obtain ⟨⟨_⟩⟩ := p
  obtain ⟨⟨_⟩⟩ := q
  cases h
  rfl

instance : DecidableEq Path := fun p q =>
  if h : p.bytes.data = q.bytes.data then isTrue (eq_of_data h)
  else isFalse fun e => h (congrArg (·.bytes.data) e)

def ofString (s : String) : Path := ⟨s.toUTF8⟩

def text? (p : Path) : Option String := String.fromUTF8? p.bytes

def shown (p : Path) : String := Text.Diagnostic.quoteBytes p.bytes

@[simp] theorem text?_ofString (s : String) : (ofString s).text? = some s := by
  simp only [ofString, text?, String.fromUTF8?, String.toUTF8_eq_toByteArray]
  exact dif_pos s.isValidUTF8

end Path

end ElispBridge
