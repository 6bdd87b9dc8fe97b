import ElispBridge.Convert.Shape
/-!
Which values can be converted, and the error of one that cannot. A conversion goes through a value depth
first, a key of a map before its value, and ends at the first part that it refuses; what is inside a refused
part is not looked at. Neither the form of dictionaries nor the place of a part changes anything about it.
-/

namespace ElispBridge

def failure? {ε α : Type} : Except ε α → Option ε
  | .ok _ => none
  | .error error => some error

theorem failure?_eq_none_iff {ε α : Type} {result : Except ε α} :
    failure? result = none ↔ ∃ a, result = .ok a := by
  cases result with
  | ok a => exact ⟨fun _ => ⟨a, rfl⟩, fun _ => rfl⟩
  | error error => exact ⟨nofun, nofun⟩

theorem failure?_eq_some_iff {ε α : Type} {result : Except ε α} {error : ε} :
    failure? result = some error ↔ result = .error error := by
  cases result with
  | ok a => exact ⟨nofun, nofun⟩
  | error other => simp only [failure?, Option.some.injEq, Except.error.injEq]

namespace Shape

/-- What is wrong with a part itself, whatever is inside it. -/
def refusal? : Shape → Option ConversionError
  | .bytes _ => some (.unsupportedType "bytes")
  | .unitStruct name | .struct name => some (.unsupportedType name)
  | .unitVariant name variant | .newtypeVariant name variant _ | .tupleVariant name variant _
  | .structVariant name variant => some (.unsupportedType (name ++ "::" ++ variant))
  | .wide n => if twoTo 127 - 1 < n then some (.integerOutOfRange n) else none
  | .failure message => some (.custom message)
  | _ => none

mutual

/-- A value and the parts in it, in the order in which they are looked at. -/
def visited : Shape → List Shape
  | .present inner => .present inner :: inner.visited
  | .newtype name inner => .newtype name inner :: inner.visited
  | .sequence items => .sequence items :: visitedAll items
  | .tuple items => .tuple items :: visitedAll items
  | .tupleStruct name items => .tupleStruct name items :: visitedAll items
  | .map steps => .map steps :: visitedSteps false steps
  | s => [s]

def visitedAll : List Shape → List Shape
  | [] => []
  | item :: rest => item.visited ++ visitedAll rest

/-- A value without a key just before it counts as a failure that the map raises at that place. -/
def visitedSteps : (keyed : Bool) → List MapStep → List Shape
  | _, [] => []
  | _, .key k :: rest => k.visited ++ visitedSteps true rest
  | true, .value v :: rest => v.visited ++ visitedSteps false rest
  | false, .value _ :: _ => [.failure "map value serialized before its key"]

end

/-- The part is at some depth inside the value, or is the value. -/
inductive Within (part : Shape) : Shape → Prop
  | here : Within part part
  | present {inner : Shape} : Within part inner → Within part (.present inner)
  | newtype {name : String} {inner : Shape} : Within part inner → Within part (.newtype name inner)
  | sequence {items : List Shape} {item : Shape} :
    item ∈ items → Within part item → Within part (.sequence items)
  | tuple {items : List Shape} {item : Shape} : item ∈ items → Within part item → Within part (.tuple items)
  | tupleStruct {name : String} {items : List Shape} {item : Shape} :
    item ∈ items → Within part item → Within part (.tupleStruct name items)
  | key {entries : List (Shape × Shape)} {k v : Shape} :
    (k, v) ∈ entries → Within part k → Within part (.map (MapStep.ofEntries entries))
  | value {entries : List (Shape × Shape)} {k v : Shape} :
    (k, v) ∈ entries → Within part v → Within part (.map (MapStep.ofEntries entries))

theorem visitedAll_eq_flatMap (items : List Shape) : visitedAll items = items.flatMap visited := by
  induction items with
  | nil => rfl
  | cons item rest ih => rw [visitedAll, ih, List.flatMap_cons]

theorem visitedSteps_ofEntries (entries : List (Shape × Shape)) :
    visitedSteps false (MapStep.ofEntries entries) = entries.flatMap fun (k, v) => k.visited ++ v.visited := by
  induction entries with
  | nil => rfl
  | cons entry rest ih =>
    have steps : MapStep.ofEntries (entry :: rest) =
      .key entry.1 :: .value entry.2 :: MapStep.ofEntries rest := rfl
    rw [steps, visitedSteps, visitedSteps, ih, List.flatMap_cons, List.append_assoc]

theorem mem_visited_self (s : Shape) : s ∈ s.visited := by
  cases s <;> exact List.mem_cons_self

theorem Within.mem_visited {part s : Shape} (h : Within part s) : part ∈ s.visited := by
  induction h with
  | here => exact part.mem_visited_self
  | present _ ih | newtype _ ih => exact List.mem_cons_of_mem _ ih
  | sequence item _ ih | tuple item _ ih | tupleStruct item _ ih =>
    rw [visited, visitedAll_eq_flatMap]
    exact List.mem_cons_of_mem _ (List.mem_flatMap.mpr ⟨_, item, ih⟩)
  | key entry _ ih =>
    rw [visited, visitedSteps_ofEntries]
    exact List.mem_cons_of_mem _ (List.mem_flatMap.mpr ⟨_, entry, List.mem_append_left _ ih⟩)
  | value entry _ ih =>
    rw [visited, visitedSteps_ofEntries]
    exact List.mem_cons_of_mem _ (List.mem_flatMap.mpr ⟨_, entry, List.mem_append_right _ ih⟩)

-- By the recursion of the conversion. An error ends it where the search for a refused part ends.
mutual

theorem failure?_convert (options : ConvertOptions) :
    ∀ s : Shape, failure? (s.convert options) = s.visited.findSome? refusal?
  | .bool _ | .int _ | .single _ | .float _ | .text _ | .absent | .unit | .bytes _ | .unitStruct _
  | .struct _ | .unitVariant _ _ | .newtypeVariant _ _ _ | .tupleVariant _ _ _ | .structVariant _ _
  | .failure _ => rfl
  | .wide n => by
    have bound : maxInt = twoTo 127 - 1 := rfl
    change failure? (if n ≤ maxInt then _ else _) = [Shape.wide n].findSome? refusal?
    rw [List.findSome?_singleton, refusal?, bound]
    by_cases fits : n ≤ twoTo 127 - 1
    · rw [if_pos fits, if_neg (Nat.not_lt.mpr fits)]
      rfl
    · rw [if_neg fits, if_pos (Nat.not_le.mp fits)]
      rfl
  | .present inner | .newtype _ inner => failure?_convert options inner
  | .sequence items | .tuple items | .tupleStruct _ items => by
    have parts := failure?_convertAll options items
    change _ = (visitedAll items).findSome? refusal?
    rw [convert, ← parts]
    cases convertAll options items <;> rfl
  | .map steps => by
    have parts := failure?_convertSteps options none steps
    change _ = (visitedSteps false steps).findSome? refusal? at parts ⊢
    rw [convert, ← parts]
    cases convertSteps options none steps <;> rfl

theorem failure?_convertAll (options : ConvertOptions) : ∀ items : List Shape,
    failure? (convertAll options items) = (visitedAll items).findSome? refusal?
  | [] => rfl
  | item :: rest => by
    have first := failure?_convert options item
    have others := failure?_convertAll options rest
    rw [convertAll, visitedAll, List.findSome?_append, ← first, ← others]
    cases item.convert options with
    | error error => rfl
    | ok e => cases convertAll options rest <;> rfl

theorem failure?_convertSteps (options : ConvertOptions) : ∀ (pending : Option Expr) (steps : List MapStep),
    failure? (convertSteps options pending steps) = (visitedSteps pending.isSome steps).findSome? refusal?
  | _, [] => rfl
  | pending, .key k :: rest => by
    have first := failure?_convert options k
    rw [convertSteps, visitedSteps, List.findSome?_append, ← first]
    cases k.convert options with
    | error error => rfl
    | ok key => exact failure?_convertSteps options (some key.asKey) rest
  | some key, .value v :: rest => by
    have first := failure?_convert options v
    have others := failure?_convertSteps options none rest
    change _ = (visitedSteps false rest).findSome? refusal? at others
    change _ = (v.visited ++ visitedSteps false rest).findSome? refusal?
    rw [convertSteps, List.findSome?_append, ← first, ← others]
    cases v.convert options with
    | error error => rfl
    | ok value => cases convertSteps options none rest <;> rfl
  | none, .value _ :: _ => rfl

end

theorem convert_ok_iff {options : ConvertOptions} {s : Shape} :
    (∃ e, s.convert options = .ok e) ↔ ∀ part ∈ s.visited, part.refusal? = none := by
  rw [← failure?_eq_none_iff, failure?_convert, List.findSome?_eq_none_iff]

theorem convert_error_iff {options : ConvertOptions} {s : Shape} {error : ConversionError} :
    s.convert options = .error error ↔ ∃ before part behind, s.visited = before ++ part :: behind ∧
      (∀ earlier ∈ before, earlier.refusal? = none) ∧ part.refusal? = some error := by
  rw [← failure?_eq_some_iff, failure?_convert, List.findSome?_eq_some_iff]
  simp only [and_comm]

theorem failure?_convert_entry (options : ConvertOptions) (k v : Shape) :
    failure? ((Shape.map [.key k, .value v]).convert options) =
      (failure? (k.convert options)).or (failure? (v.convert options)) := by
  simp only [failure?_convert, visited, visitedSteps, List.findSome?_cons, refusal?, List.append_nil,
    List.findSome?_append]

/-- A value is converted exactly if none of its parts is refused, and has the error of the first refused one
otherwise. The form of dictionaries has no say in that. A value that is refused is refused as a key and as
the value of a key alike, and so is whatever holds a refused part at any depth. -/
theorem convert_refusal (options : ConvertOptions) (s : Shape) :
    ((∃ e, s.convert options = .ok e) ↔ ∀ part ∈ s.visited, part.refusal? = none) ∧
    (∀ error, s.convert options = .error error ↔ ∃ before part behind,
      s.visited = before ++ part :: behind ∧ (∀ earlier ∈ before, earlier.refusal? = none) ∧
        part.refusal? = some error) ∧
    (∀ other error, s.convert options = .error error ↔ s.convert other = .error error) ∧
    (∀ other e, other.convert options = .ok e → ∀ error,
      ((map [.key s, .value other]).convert options = .error error ↔ s.convert options = .error error) ∧
      ((map [.key other, .value s]).convert options = .error error ↔ s.convert options = .error error)) ∧
    (∀ part, Within part s → part.refusal? ≠ none → ∃ first, s.convert options = .error first) := by
  refine ⟨convert_ok_iff, fun _ => convert_error_iff, ?_, ?_, ?_⟩
  · intro other error
    rw [convert_error_iff, convert_error_iff]
  · intro other e converted error
    have clean : failure? (other.convert options) = none := failure?_eq_none_iff.mpr ⟨e, converted⟩
    constructor
    · rw [← failure?_eq_some_iff, failure?_convert_entry, clean, Option.or_none, failure?_eq_some_iff]
    · rw [← failure?_eq_some_iff, failure?_convert_entry, clean, Option.none_or, failure?_eq_some_iff]
  · intro part within refused
    cases result : s.convert options with
    | error first => exact ⟨first, rfl⟩
    | ok e => exact absurd (convert_ok_iff.mp ⟨e, result⟩ part within.mem_visited) refused

/-- The number in the key is found before the bytes in its value. -/
theorem convert_refusal_key :
    let s : Shape := .present (.newtype "N" (.sequence [.tuple [.unit],
      .map (MapStep.ofEntries [(.tupleStruct "K" [.text "a", .wide (twoTo 127)], .present (.bytes [0]))])]))
    Within (.bytes [0]) s ∧ (Shape.bytes [0]).refusal? ≠ none ∧ (∃ first, s.convert .plist = .error first) ∧
      Shape.unit.convert .plist = .ok .nil ∧
      (map [.key .unit, .value s]).convert .plist = .error (.integerOutOfRange (twoTo 127)) := by
  intro s
  have listed : (Shape.tupleStruct "K" [.text "a", .wide (twoTo 127)], Shape.present (.bytes [0])) ∈
    [(Shape.tupleStruct "K" [.text "a", .wide (twoTo 127)], Shape.present (.bytes [0]))] := List.mem_cons_self
  have within : Within (.bytes [0]) s :=
    .present (.newtype (.sequence (List.mem_cons_of_mem _ List.mem_cons_self) (.value listed (.present .here))))
  rcases convert_refusal .plist s with ⟨-, error, -, places, depth⟩
  have number : s.convert .plist = .error (.integerOutOfRange (twoTo 127)) := rfl
  exact ⟨within, nofun, depth _ within nofun, rfl, (places .unit .nil rfl _).2.mpr number⟩

end Shape

end ElispBridge
