import ElispBridge.Convert.Shape
import ElispBridge.Proofs.Convert.Members
import ElispBridge.Proofs.Convert.Parts
/-!
The two conversions of a host value agree: the one that knows its type and the one that goes by what the
value describes itself as. They differ on arrays only, which describe themselves as tuples.
-/

namespace ElispBridge

namespace Shape

theorem convert_sequence {options : ConvertOptions} {items : List Shape} {es : List Expr}
    (h : convertAll options items = .ok es) :
    (Shape.sequence items).convert options = .ok (Expr.list es).quote := by
  simp only [convert, h]

theorem convert_tuple {options : ConvertOptions} {items : List Shape} {es : List Expr}
    (h : convertAll options items = .ok es) :
    (Shape.tuple items).convert options = .ok (.list es) := by
  simp only [convert, h]

theorem convert_map {options : ConvertOptions} {steps : List MapStep} {pairs : List (Expr × Expr)}
    (h : convertSteps options none steps = .ok pairs) :
    (Shape.map steps).convert options = .ok (.dictionary options.dictFormat pairs) := by
  simp only [convert, h]

theorem convertAll_cons {options : ConvertOptions} {item : Shape} {rest : List Shape} {e : Expr}
    {es : List Expr} (first : item.convert options = .ok e) (others : convertAll options rest = .ok es) :
    convertAll options (item :: rest) = .ok (e :: es) := by
  simp only [convertAll, first, others]

theorem convertSteps_entry {options : ConvertOptions} {k v : Shape} {rest : List MapStep}
    {key value : Expr} {pairs : List (Expr × Expr)} (hk : k.convert options = .ok key)
    (hv : v.convert options = .ok value) (others : convertSteps options none rest = .ok pairs) :
    convertSteps options none (.key k :: .value v :: rest) = .ok ((key.asKey, value) :: pairs) := by
  simp only [convertSteps, hk, hv, others]

end Shape

/-- A key describes itself as a value, and the string that comes of text is made a symbol afterwards. -/
theorem Key.convert_asKey (options : ConvertOptions) (key : Key) :
    ∃ e, key.shape.convert options = .ok e ∧ e.asKey = key.toExpr := by
  cases key with
  | string s => exact ⟨.string s, rfl, rfl⟩
  | char c => exact ⟨.string (String.singleton c), rfl, rfl⟩
  | int n => exact ⟨.int n, rfl, rfl⟩
  | bool b => exact ⟨.symbol (Symbol.ofBool b), rfl, rfl⟩
  | unit => exact ⟨.nil, rfl, rfl⟩
  | optional n => cases n with
    | none => exact ⟨.nil, rfl, rfl⟩
    | some n => exact ⟨.int n, rfl, rfl⟩
  | pair n s => exact ⟨.list [.int n, .string s], rfl, rfl⟩

namespace Json

theorem shapes_eq_map (items : List Json) : shapes items = items.map shape := by
  induction items with
  | nil => rfl
  | cons j rest ih => rw [shapes, ih, List.map_cons]

theorem memberShapes_eq_map (members : List (String × Json)) :
    memberShapes members = members.map fun member => (.string member.1, member.2.shape) := by
  induction members with
  | nil => rfl
  | cons member rest ih =>
    rw [memberShapes, ih]
    rfl

theorem shape_object (members : List (String × Json)) : (object members).shape =
    .map (MapStep.ofEntries ((listed members).map fun member => (.text member.1, member.2.shape))) := by
  rw [shape, memberShapes_eq_map, Shape.orderedMap,
    sorted_map_members fun member : String × Json => member.2.shape, List.map_map]
  rfl

section Parts

variable {options : ConvertOptions}

theorem convertAll_shapes {items : List Json}
    (h : ∀ j ∈ items, j.shape.convert options = .ok (j.toExpr options)) :
    Shape.convertAll options (items.map shape) = .ok (items.map (toExpr options)) := by
  induction items with
  | nil => rfl
  | cons j rest ih =>
    rcases List.forall_mem_cons.mp h with ⟨first, others⟩
    exact Shape.convertAll_cons first (ih others)

theorem convertSteps_members {members : List (String × Json)}
    (h : ∀ member ∈ members, member.2.shape.convert options = .ok (member.2.toExpr options)) :
    Shape.convertSteps options none
        (MapStep.ofEntries (members.map fun member => (.text member.1, member.2.shape))) =
      .ok (members.map fun member => (.named member.1, member.2.toExpr options)) := by
  induction members with
  | nil => rfl
  | cons member rest ih =>
    rcases List.forall_mem_cons.mp h with ⟨first, others⟩
    have key : (Shape.text member.1).convert options = .ok (.string member.1) := rfl
    exact Shape.convertSteps_entry key first (ih others)

end Parts

/-- Whether a number is asked for or says itself what it is held as makes no difference. -/
theorem Number.shape_convert (options : ConvertOptions) (n : Number) :
    n.shape.convert options = .ok n.toExpr := by
  rw [toExpr_eq_literal]
  cases n <;> rfl

theorem shape_convert (options : ConvertOptions) (j : Json) :
    j.shape.convert options = .ok (j.toExpr options) := by
  induction j with
  | null | bool | string => rfl
  | number n => exact n.shape_convert options
  | array items ih =>
    rw [shape, shapes_eq_map, toExpr_array]
    exact Shape.convert_sequence (convertAll_shapes ih)
  | object members ih =>
    rw [shape_object, toExpr_object]
    exact Shape.convert_map (convertSteps_members fun member listed => ih member (mem_of_mem_listed listed))

end Json

namespace HostValue

mutual

theorem convert_described (options : ConvertOptions) : ∀ {v : HostValue}, v.FreeOf isTree →
    ∃ s, v.shape? = some s ∧ s.convert options = .ok (v.arraysAsTuples.toExpr options)
  | .bool b, _ => ⟨.bool b, rfl, rfl⟩
  | .unit, _ => ⟨.unit, rfl, rfl⟩
  | .absent, _ => ⟨.absent, rfl, rfl⟩
  | .int n, _ => ⟨.int n, rfl, rfl⟩
  | .single bits, _ => ⟨.single bits, rfl, rfl⟩
  | .float x, _ => ⟨.float x, rfl, rfl⟩
  | .string s, _ => ⟨.text s, rfl, rfl⟩
  | .char c, _ => ⟨.text (String.singleton c), rfl, rfl⟩
  | .present v, h => by
    rcases convert_described options h.2 with ⟨s, described, converted⟩
    exact ⟨.present s, by rw [shape?, described]; rfl, converted⟩
  | .pointer v, h => by
    rcases convert_described options h.2 with ⟨s, described, converted⟩
    exact ⟨s, described, converted⟩
  | .sequence items, h => by
    rcases convertAll_described options h.2 with ⟨ss, described, converted⟩
    exact ⟨.sequence ss, by rw [shape?, described]; rfl, Shape.convert_sequence converted⟩
  | .array items, h => by
    rcases convertAll_described options h.2 with ⟨ss, described, converted⟩
    exact ⟨.array ss, by rw [shape?, described]; rfl, Shape.convert_tuple converted⟩
  | .tuple items, h => by
    rcases convertAll_described options h.2 with ⟨ss, described, converted⟩
    exact ⟨.tuple ss, by rw [shape?, described]; rfl, Shape.convert_tuple converted⟩
  | .map entries, h => by
    rcases convertSteps_described options h.2 with ⟨steps, described, converted⟩
    exact ⟨.map steps, by rw [shape?, described]; rfl, Shape.convert_map converted⟩
  | .json j, _ => ⟨j.shape, rfl, j.shape_convert options⟩
  | .tree _, h => nomatch h

theorem convertAll_described (options : ConvertOptions) :
    ∀ {items : List HostValue}, AllFreeOf isTree items → ∃ ss, shapes? items = some ss ∧
      Shape.convertAll options ss = .ok (toExprs options (allArraysAsTuples items))
  | [], _ => ⟨[], rfl, rfl⟩
  | v :: rest, h => by
    rcases convert_described options h.1 with ⟨s, described, converted⟩
    rcases convertAll_described options h.2 with ⟨ss, others, convertedAll⟩
    exact ⟨s :: ss, by rw [shapes?, described, others], Shape.convertAll_cons converted convertedAll⟩

theorem convertSteps_described (options : ConvertOptions) :
    ∀ {entries : List (Key × HostValue)}, EntriesFreeOf isTree entries → ∃ steps,
      steps? entries = some steps ∧
      Shape.convertSteps options none steps = .ok (toPairs options (entriesArraysAsTuples entries))
  | [], _ => ⟨[], rfl, rfl⟩
  | (key, v) :: rest, h => by
    rcases key.convert_asKey options with ⟨e, keyed, named⟩
    rcases convert_described options h.1 with ⟨s, described, converted⟩
    rcases convertSteps_described options h.2 with ⟨steps, others, convertedAll⟩
    refine ⟨.key key.shape :: .value s :: steps, by rw [steps?, described, others], ?_⟩
    rw [Shape.convertSteps_entry keyed converted convertedAll, named]
    rfl

end

theorem convert_of_arrayless (options : ConvertOptions) {v : HostValue} (tree : v.FreeOf isTree)
    (array : v.FreeOf isArray) : ∃ s, v.shape? = some s ∧ s.convert options = .ok (v.toExpr options) := by
  rcases convert_described options tree with ⟨s, described, converted⟩
  rw [arraysAsTuples_eq_self array] at converted
  exact ⟨s, described, converted⟩

end HostValue

end ElispBridge
