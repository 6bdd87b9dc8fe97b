import ElispBridge.Build.Call
import ElispBridge.Build.Source
import ElispBridge.Convert.Shape
import ElispBridge.Evaluation.Request
import ElispBridge.Proofs.Convert.Members
/-!
Quotations stay flat under every operation: what is made of trees in which no quotation directly holds
another one is such a tree again. For an operation on host values or on code, these are the trees that
the value or the code holds.
-/

namespace ElispBridge

namespace Expr

theorem allFlatQuotes_iff {items : List Expr} : AllFlatQuotes items ↔ ∀ e ∈ items, e.FlatQuotes := by
  induction items with
  | nil => simp only [AllFlatQuotes, List.not_mem_nil, false_implies, implies_true]
  | cons e rest ih => simp only [AllFlatQuotes, ih, List.forall_mem_cons]

namespace FlatQuotes

theorem list {items : List Expr} (h : ∀ e ∈ items, e.FlatQuotes) : (Expr.list items).FlatQuotes :=
  allFlatQuotes_iff.mpr h

theorem item {items : List Expr} (h : (Expr.list items).FlatQuotes) : ∀ e ∈ items, e.FlatQuotes :=
  allFlatQuotes_iff.mp h

theorem quoteIf {e : Expr} (h : e.FlatQuotes) (quoting : Bool) : (e.quoteIf quoting).FlatQuotes := by
  cases quoting with
  | false => exact h
  | true => exact h.quote

theorem call (function : String) {args : List Expr} (h : ∀ e ∈ args, e.FlatQuotes) :
    (Expr.call function args).FlatQuotes := list (List.forall_mem_cons.mpr ⟨trivial, h⟩)

theorem keywordOrSelf {e : Expr} (h : e.FlatQuotes) : e.keywordOrSelf.FlatQuotes := by
  cases e <;> exact h

theorem asKey {e : Expr} (h : e.FlatQuotes) : e.asKey.FlatQuotes := by
  unfold Expr.asKey
  split
  · trivial
  · exact h

theorem dictionary (format : DictFormat) {pairs : List (Expr × Expr)}
    (h : ∀ pair ∈ pairs, pair.1.FlatQuotes ∧ pair.2.FlatQuotes) :
    (Expr.dictionary format pairs).FlatQuotes := by
  cases format with
  | alist =>
    apply list
    intro e member
    rcases List.mem_map.mp member with ⟨pair, listed, rfl⟩
    exact h pair listed
  | plist =>
    apply list
    intro e member
    rcases List.mem_flatMap.mp member with ⟨pair, listed, entry⟩
    rcases h pair listed with ⟨key, value⟩
    rcases List.mem_cons.mp entry with rfl | entry
    · exact key.keywordOrSelf
    · rw [List.mem_singleton.mp entry]
      exact value

end FlatQuotes

end Expr

open ElispBridge.Expr

theorem Key.flatQuotes_toExpr (key : Key) : key.toExpr.FlatQuotes := by
  cases key with
  | string | char | int | bool | unit => trivial
  | optional n => cases n <;> trivial
  | pair n s => exact ⟨trivial, trivial, trivial⟩

theorem Json.flatQuotes_toExpr (options : ConvertOptions) (j : Json) : (j.toExpr options).FlatQuotes := by
  induction j with
  | null | bool | string => trivial
  | number n =>
    rw [toExpr, n.toExpr_eq_literal]
    trivial
  | array items ih =>
    rw [toExpr_array]
    exact FlatQuotes.quote (allFlatQuotes_iff.mpr (List.forall_mem_map.mpr ih))
  | object members ih =>
    rw [toExpr_object]
    apply FlatQuotes.dictionary
    intro pair made
    rcases List.mem_map.mp made with ⟨member, listed, rfl⟩
    exact ⟨trivial, ih member (mem_of_mem_listed listed)⟩

namespace HostValue

mutual

/-- The trees of syntax in a host value. -/
def trees : HostValue → List Expr
  | .tree e => [e]
  | .present v | .pointer v => v.trees
  | .sequence items | .array items | .tuple items => allTrees items
  | .map entries => entryTrees entries
  | _ => []

def allTrees : List HostValue → List Expr
  | [] => []
  | v :: rest => v.trees ++ allTrees rest

def entryTrees : List (Key × HostValue) → List Expr
  | [] => []
  | (_, v) :: rest => v.trees ++ entryTrees rest

end

mutual

theorem flatQuotes_toExpr (options : ConvertOptions) :
    ∀ v : HostValue, (∀ e ∈ v.trees, e.FlatQuotes) → (v.toExpr options).FlatQuotes
  | .tree e, h => h e List.mem_cons_self
  | .present v, h | .pointer v, h => flatQuotes_toExpr options v h
  | .json j, _ => j.flatQuotes_toExpr options
  | .sequence items, h | .array items, h =>
    FlatQuotes.quote (e := .list _) (flatQuotes_toExprs options items h)
  | .tuple items, h => flatQuotes_toExprs options items h
  | .map entries, h => FlatQuotes.dictionary _ (flatQuotes_toPairs options entries h)
  | .bool _, _ | .unit, _ | .absent, _ | .int _, _ | .single _, _ | .float _, _ | .string _, _
  | .char _, _ => trivial

theorem flatQuotes_toExprs (options : ConvertOptions) : ∀ items : List HostValue,
    (∀ e ∈ allTrees items, e.FlatQuotes) → AllFlatQuotes (toExprs options items)
  | [], _ => trivial
  | v :: rest, h => by
    rcases List.forall_mem_append.mp h with ⟨first, others⟩
    exact ⟨flatQuotes_toExpr options v first, flatQuotes_toExprs options rest others⟩

theorem flatQuotes_toPairs (options : ConvertOptions) : ∀ entries : List (Key × HostValue),
    (∀ e ∈ entryTrees entries, e.FlatQuotes) →
      ∀ pair ∈ toPairs options entries, pair.1.FlatQuotes ∧ pair.2.FlatQuotes
  | [], _ => by
    intro pair member
    cases member
  | (key, v) :: rest, h => by
    rcases List.forall_mem_append.mp h with ⟨first, others⟩
    have entry := And.intro key.flatQuotes_toExpr (flatQuotes_toExpr options v first)
    exact List.forall_mem_cons.mpr ⟨entry, flatQuotes_toPairs options rest others⟩

end

theorem flatQuotes_map_toExpr (options : ConvertOptions) {vs : List HostValue}
    (h : ∀ v ∈ vs, ∀ e ∈ v.trees, e.FlatQuotes) : ∀ e ∈ vs.map (·.toExpr options), e.FlatQuotes := by
  intro e member
  rcases List.mem_map.mp member with ⟨v, listed, rfl⟩
  exact flatQuotes_toExpr options v (h v listed)

theorem flatQuotes_toKey {v : HostValue} (h : ∀ e ∈ v.trees, e.FlatQuotes) : v.toKey.FlatQuotes := by
  fun_induction toKey v with
  | case1 | case2 => trivial
  | case3 v ih => exact ih h
  | case4 v => exact flatQuotes_toExpr _ v h

theorem flatQuotes_quoteForm {v : HostValue} (h : ∀ e ∈ v.trees, e.FlatQuotes) :
    v.quoteForm.FlatQuotes := by
  fun_induction quoteForm v with
  | case1 => trivial
  | case2 v ih => exact ih h
  | case3 v => exact flatQuotes_toExpr _ v h

theorem flatQuotes_dictionary (format : DictFormat) (options : ConvertOptions)
    {pairs : List (HostValue × HostValue)}
    (h : ∀ pair ∈ pairs, ∀ e ∈ pair.1.trees ++ pair.2.trees, e.FlatQuotes) :
    (dictionary format options pairs).FlatQuotes := by
  apply FlatQuotes.dictionary
  intro entry member
  rcases List.mem_map.mp member with ⟨pair, listed, rfl⟩
  rcases List.forall_mem_append.mp (h pair listed) with ⟨key, value⟩
  exact ⟨flatQuotes_toKey key, flatQuotes_toExpr options pair.2 value⟩

end HostValue

namespace Shape

mutual

theorem flatQuotes_convert (options : ConvertOptions) :
    ∀ (s : Shape) {e : Expr}, s.convert options = .ok e → e.FlatQuotes
  | .bool _, _, h | .int _, _, h | .single _, _, h | .float _, _, h | .text _, _, h | .absent, _, h
  | .unit, _, h => by
    cases h
    trivial
  | .wide _, _, h => by
    rw [convert] at h
    split at h
    · cases h
      trivial
    · cases h
  | .present inner, _, h | .newtype _ inner, _, h => by
    rw [convert] at h
    exact flatQuotes_convert options inner h
  | .sequence items, _, h => by
    rw [convert] at h
    split at h
    · rename_i converted
      cases h
      exact FlatQuotes.quote (e := .list _) (flatQuotes_convertAll options items converted)
    · cases h
  | .tuple items, _, h | .tupleStruct _ items, _, h => by
    rw [convert] at h
    split at h
    · rename_i converted
      cases h
      exact flatQuotes_convertAll options items converted
    · cases h
  | .map steps, _, h => by
    rw [convert] at h
    split at h
    · rename_i converted
      cases h
      exact FlatQuotes.dictionary _ (flatQuotes_convertSteps options none steps nofun converted)
    · cases h
  | .bytes _, _, h | .unitStruct _, _, h | .struct _, _, h | .unitVariant _ _, _, h
  | .newtypeVariant _ _ _, _, h | .tupleVariant _ _ _, _, h | .structVariant _ _, _, h
  | .failure _, _, h => nomatch h

theorem flatQuotes_convertAll (options : ConvertOptions) :
    ∀ (items : List Shape) {es : List Expr}, convertAll options items = .ok es → AllFlatQuotes es
  | [], _, h => by
    cases h
    trivial
  | item :: rest, _, h => by
    rw [convertAll] at h
    split at h
    · cases h
    rename_i first
    split at h
    · cases h
    rename_i others
    cases h
    exact ⟨flatQuotes_convert options item first, flatQuotes_convertAll options rest others⟩

/-- The key that waits for its value is flat too. -/
theorem flatQuotes_convertSteps (options : ConvertOptions) : ∀ (pending : Option Expr)
    (steps : List MapStep) {pairs : List (Expr × Expr)}, (∀ key ∈ pending, key.FlatQuotes) →
    convertSteps options pending steps = .ok pairs →
    ∀ pair ∈ pairs, pair.1.FlatQuotes ∧ pair.2.FlatQuotes
  | _, [], _, _, h => by
    cases h
    intro pair member
    cases member
  | _, .key k :: rest, _, _, h => by
    rw [convertSteps] at h
    split at h
    · cases h
    rename_i key converted
    refine flatQuotes_convertSteps options (some key.asKey) rest ?_ h
    rintro _ ⟨⟩
    exact (flatQuotes_convert options k converted).asKey
  | none, .value _ :: _, _, _, h => nomatch h
  | some key, .value v :: rest, _, waiting, h => by
    rw [convertSteps] at h
    split at h
    · cases h
    rename_i value
    split at h
    · cases h
    rename_i others
    cases h
    have entry := And.intro (waiting key rfl) (flatQuotes_convert options v value)
    exact List.forall_mem_cons.mpr ⟨entry, flatQuotes_convertSteps options none rest nofun others⟩

end

end Shape

end ElispBridge
