import ElispBridge.Proofs.Convert.Agreement
import ElispBridge.Proofs.Convert.Printing
import Mathlib.Data.List.Forall2
/-!
Keys of dictionaries, by the type of a key and by what the key describes itself as. By its description
every text is a symbol, also text in an option, and a map inside a key takes the form that the options name;
by its type text in an option stays a string, and a map inside a key is an association list. The two
dictionaries of the same pairs are equal exactly when no key shows one of these differences.
-/

namespace ElispBridge

theorem Expr.keywordOrSelf_of_symbol?_eq_none {e : Expr} (h : e.symbol? = none) : e.keywordOrSelf = e := by
  cases e with
  | symbol => cases h
  | literal | cons | list | quoted | raw => rfl

theorem Expr.eq_of_symbol?_eq_some {e : Expr} {s : Symbol} (h : e.symbol? = some s) : e = .symbol s := by
  cases e with
  | symbol => exact congrArg Expr.symbol (Option.some.inj h)
  | literal | cons | list | quoted | raw => cases h

section Keys

variable {α : Type} {format : DictFormat} {value key other : α → Expr} {items : List α}

/-- In a property list a key shows as a keyword only, so equal keywords have to come of equal keys. -/
theorem Expr.key_eq_of_dictionary_eq
    (same : ∀ a ∈ items, (key a).keywordOrSelf = (other a).keywordOrSelf → key a = other a)
    (equal : dictionary format (items.map fun a => (key a, value a)) =
      dictionary format (items.map fun a => (other a, value a))) : ∀ a ∈ items, key a = other a := by
  cases format with
  | alist =>
    simp only [dictionary, alist, List.map_map, Expr.list.injEq] at equal
    intro a member
    have pair := List.map_inj_left.mp equal a member
    simp only [Function.comp_apply, Expr.cons.injEq] at pair
    exact pair.1
  | plist =>
    simp only [dictionary, plist, Expr.list.injEq] at equal
    induction items with
    | nil =>
      intro a member
      cases member
    | cons a rest ih =>
      simp only [List.map_cons, List.flatMap_cons, List.cons_append, List.nil_append,
        List.cons.injEq] at equal
      rcases List.forall_mem_cons.mp same with ⟨first, others⟩
      exact List.forall_mem_cons.mpr ⟨first equal.1, ih others equal.2.2⟩

theorem Expr.dictionary_eq_iff
    (same : ∀ a ∈ items, (key a).keywordOrSelf = (other a).keywordOrSelf → key a = other a) :
    dictionary format (items.map fun a => (key a, value a)) =
        dictionary format (items.map fun a => (other a, value a)) ↔
      ∀ a ∈ items, key a = other a := by
  refine ⟨key_eq_of_dictionary_eq same, ?_⟩
  intro equal
  apply congrArg (dictionary format)
  apply List.map_congr_left
  intro a member
  rw [equal a member]

end Keys

namespace Json

mutual

/-- An object that is the value or stands in it has a member. -/
def hasMembers : Json → Bool
  | .array items => anyHasMembers items
  | .object members => !members.isEmpty
  | _ => false

def anyHasMembers : List Json → Bool
  | [] => false
  | j :: rest => j.hasMembers || anyHasMembers rest

end

theorem anyHasMembers_eq_false_iff {items : List Json} :
    anyHasMembers items = false ↔ ∀ j ∈ items, j.hasMembers = false := by
  induction items with
  | nil => simp only [anyHasMembers, List.not_mem_nil, false_implies, implies_true]
  | cons j rest ih => simp only [anyHasMembers, Bool.or_eq_false_iff, ih, List.forall_mem_cons]

theorem toExpr_plist_eq_iff (j : Json) : j.toExpr .plist = j.toExpr {} ↔ j.hasMembers = false := by
  induction j with
  | null | bool | number | string => exact iff_of_true rfl rfl
  | array items ih =>
    rw [toExpr_array, toExpr_array, hasMembers, anyHasMembers_eq_false_iff, ← forall₂_congr ih]
    simp [Expr.quote]
  | object members =>
    rw [toExpr_object, toExpr_object, hasMembers, Bool.not_eq_false', List.isEmpty_iff, ← listed_eq_nil_iff]
    cases listed members with
    | nil => exact iff_of_true rfl rfl
    | cons member rest =>
      refine iff_of_false ?_ (List.cons_ne_nil member rest)
      -- a keyword comes first in the one list, a cell in the other
      intro same
      cases (List.cons.inj (Expr.list.inj same)).1

theorem symbol?_toExpr (options other : ConvertOptions) (j : Json) :
    (j.toExpr options).symbol? = (j.toExpr other).symbol? := by
  cases j with
  | object members =>
    rw [toExpr, toExpr]
    cases options.dictFormat <;> cases other.dictFormat <;> rfl
  | null | bool | number | string | array => rfl

end Json

namespace HostValue

/-- The text that a value is, behind references only. -/
def text? : HostValue → Option String
  | .string s => some s
  | .char c => some (String.singleton c)
  | .pointer v => v.text?
  | _ => none

/-- The text that a value is or holds, behind references and options, or as JSON. -/
def optionalText? : HostValue → Option String
  | .string s => some s
  | .char c => some (String.singleton c)
  | .pointer v | .present v => v.optionalText?
  | .json (.string s) => some s
  | _ => none

/-- What a key converts to by its description. -/
def describedKey (options : ConvertOptions) (key : HostValue) : Expr :=
  match key.optionalText? with
  | some s => .named s
  | none => key.toExpr options

def isFilledMap : HostValue → Bool
  | .map (_ :: _) => true
  | .json j => j.hasMembers
  | _ => false

/-- The key is not text in an option, and no map with entries in it is to be a property list. -/
def KeyedAlike (options : ConvertOptions) (key : HostValue) : Prop :=
  (key.optionalText? = none ∨ ∃ s, key.text? = some s) ∧
    (options.dictFormat = .alist ∨ key.FreeOf isFilledMap)

theorem optionalText?_of_text? {s : String} : ∀ {v : HostValue}, v.text? = some s → v.optionalText? = some s
  | .string _, h | .char _, h => h
  | .pointer v, h => optionalText?_of_text? (v := v) h

theorem toExpr_of_optionalText? (options : ConvertOptions) {s : String} :
    ∀ {v : HostValue}, v.optionalText? = some s → v.toExpr options = .string s
  | .string _, h | .char _, h | .json (.string _), h => by
    cases h
    rfl
  | .pointer v, h | .present v, h => toExpr_of_optionalText? options (v := v) h

/-- A text is the string that serves as the symbol it names. Any other key is no string, so it is left as
it is. -/
theorem asKey_toExpr (options : ConvertOptions) :
    ∀ {v : HostValue}, v.FreeOf isTree → (v.toExpr options).asKey = v.describedKey options
  | .pointer v, free | .present v, free => asKey_toExpr options (v := v) free.2
  | .map entries, _ => by
    change (Expr.dictionary options.dictFormat (toPairs options entries)).asKey =
      Expr.dictionary options.dictFormat (toPairs options entries)
    cases options.dictFormat <;> rfl
  | .json (.number n), _ => by
    change n.toExpr.asKey = n.toExpr
    rw [n.toExpr_eq_literal]
    cases n <;> rfl
  | .json (.object members), _ => by
    change ((Json.object members).toExpr options).asKey = (Json.object members).toExpr options
    rw [Json.toExpr]
    cases options.dictFormat <;> rfl
  | .json .null, _ | .json (.bool _), _ | .json (.string _), _ | .json (.array _), _ | .bool _, _
  | .unit, _ | .absent, _ | .int _, _ | .single _, _ | .float _, _ | .string _, _ | .char _, _
  | .sequence _, _ | .array _, _ | .tuple _, _ => rfl

theorem toKey_of_text? {s : String} : ∀ {v : HostValue}, v.text? = some s → v.toKey = .named s
  | .string _, h | .char _, h => by
    cases h
    rfl
  | .pointer v, h => toKey_of_text? (v := v) h

theorem toKey_of_text?_eq_none : ∀ {v : HostValue}, v.text? = none → v.toKey = v.toExpr {}
  | .pointer v, h => toKey_of_text?_eq_none (v := v) h
  | .present _, _ | .json _, _ | .map _, _ | .bool _, _ | .unit, _ | .absent, _ | .int _, _
  | .single _, _ | .float _, _ | .sequence _, _ | .array _, _ | .tuple _, _ | .tree _, _ => rfl

theorem freeOf_isFilledMap_of_text? {s : String} :
    ∀ {v : HostValue}, v.text? = some s → v.FreeOf isFilledMap
  | .string _, _ | .char _, _ => rfl
  | .pointer v, h => ⟨rfl, freeOf_isFilledMap_of_text? (v := v) h⟩

-- The options show in filled maps only: as a property list the first item is a key, and no pair.
mutual

theorem toExpr_plist_eq_iff : ∀ v : HostValue, v.toExpr .plist = v.toExpr {} ↔ v.FreeOf isFilledMap
  | .present v | .pointer v => by
    rw [toExpr, toExpr, toExpr_plist_eq_iff v, FreeOf]
    exact (and_iff_right rfl).symm
  | .json j => j.toExpr_plist_eq_iff
  | .sequence items | .array items => by
    have parts := toExprs_plist_eq_iff items
    rw [toExpr, toExpr, FreeOf, ← parts]
    simp [Expr.quote, isFilledMap]
  | .tuple items => by
    have parts := toExprs_plist_eq_iff items
    rw [toExpr, toExpr, FreeOf, ← parts]
    simp [isFilledMap]
  | .map [] => iff_of_true rfl ⟨rfl, trivial⟩
  | .map ((key, v) :: rest) => by
    refine iff_of_false ?_ (fun free => nomatch free.1)
    intro same
    simp only [toExpr, toPairs, ConvertOptions.plist, Expr.dictionary, Expr.plist, Expr.alist,
      Expr.list.injEq] at same
    exact key.keywordOrSelf_ne_cons _ _ (List.cons.inj same).1
  | .bool _ | .unit | .absent | .int _ | .single _ | .float _ | .string _ | .char _ | .tree _ =>
    iff_of_true rfl rfl

theorem toExprs_plist_eq_iff :
    ∀ items : List HostValue, toExprs .plist items = toExprs {} items ↔ AllFreeOf isFilledMap items
  | [] => iff_of_true rfl trivial
  | v :: rest => by
    rw [toExprs, toExprs, List.cons.injEq, toExpr_plist_eq_iff v, toExprs_plist_eq_iff rest, AllFreeOf]

end

theorem toExpr_eq_default_iff (options : ConvertOptions) (v : HostValue) :
    v.toExpr options = v.toExpr {} ↔ options.dictFormat = .alist ∨ v.FreeOf isFilledMap := by
  rcases options with ⟨format⟩
  cases format with
  | alist => exact iff_of_true rfl (.inl rfl)
  | plist => exact (toExpr_plist_eq_iff v).trans (or_iff_right nofun).symm

theorem symbol?_toExpr (options other : ConvertOptions) :
    ∀ v : HostValue, (v.toExpr options).symbol? = (v.toExpr other).symbol?
  | .present v | .pointer v => symbol?_toExpr options other v
  | .json j => j.symbol?_toExpr options other
  | .map _ => by
    rw [toExpr, toExpr]
    cases options.dictFormat <;> cases other.dictFormat <;> rfl
  | .bool _ | .unit | .absent | .int _ | .single _ | .float _ | .string _ | .char _ | .sequence _
  | .array _ | .tuple _ | .tree _ => rfl

theorem toExpr_eq_of_keywordOrSelf (options other : ConvertOptions) {v : HostValue}
    (same : (v.toExpr options).keywordOrSelf = (v.toExpr other).keywordOrSelf) :
    v.toExpr options = v.toExpr other := by
  have named := symbol?_toExpr options other v
  cases symbol : (v.toExpr options).symbol? with
  | some s =>
    rw [Expr.eq_of_symbol?_eq_some symbol, Expr.eq_of_symbol?_eq_some (named.symm.trans symbol)]
  | none =>
    rw [Expr.keywordOrSelf_of_symbol?_eq_none symbol,
      Expr.keywordOrSelf_of_symbol?_eq_none (named.symm.trans symbol)] at same
    exact same

theorem describedKey_of_text? (options : ConvertOptions) {v : HostValue} {s : String}
    (h : v.text? = some s) : v.describedKey options = v.toKey := by
  rw [describedKey, optionalText?_of_text? h, toKey_of_text? h]

theorem describedKey_eq_of_keywordOrSelf (options : ConvertOptions) {v : HostValue}
    (same : (v.describedKey options).keywordOrSelf = v.toKey.keywordOrSelf) :
    v.describedKey options = v.toKey := by
  cases text : v.text? with
  | some s => exact describedKey_of_text? options text
  | none =>
    rw [toKey_of_text?_eq_none text, describedKey] at same ⊢
    cases optional : v.optionalText? with
    | some s =>
      rw [optional, toExpr_of_optionalText? {} optional] at same
      cases same
    | none =>
      rw [optional] at same
      exact toExpr_eq_of_keywordOrSelf options {} same

theorem describedKey_eq_toKey_iff (options : ConvertOptions) (v : HostValue) :
    v.describedKey options = v.toKey ↔ v.KeyedAlike options := by
  cases text : v.text? with
  | some s =>
    exact iff_of_true (describedKey_of_text? options text)
      ⟨.inr ⟨s, text⟩, .inr (freeOf_isFilledMap_of_text? text)⟩
  | none =>
    rw [toKey_of_text?_eq_none text, KeyedAlike, text, describedKey]
    cases optional : v.optionalText? with
    | some s =>
      rw [toExpr_of_optionalText? {} optional]
      exact iff_of_false nofun (fun alike => alike.1.elim nofun nofun)
    | none => exact (toExpr_eq_default_iff options v).trans (and_iff_right (.inl rfl)).symm

/-- The entry is what the pair's parts describe themselves as. -/
def Described (pair : HostValue × HostValue) (entry : Shape × Shape) : Prop :=
  pair.1.shape? = some entry.1 ∧ pair.2.shape? = some entry.2

theorem convertSteps_of_arrayless (options : ConvertOptions) {pairs : List (HostValue × HostValue)}
    (tree : ∀ pair ∈ pairs, pair.1.FreeOf isTree ∧ pair.2.FreeOf isTree)
    (array : ∀ pair ∈ pairs, pair.1.FreeOf isArray ∧ pair.2.FreeOf isArray) :
    ∃ entries, List.Forall₂ Described pairs entries ∧
      Shape.convertSteps options none (MapStep.ofEntries entries) =
        .ok (pairs.map fun (key, v) => (key.describedKey options, v.toExpr options)) := by
  induction pairs with
  | nil => exact ⟨[], .nil, rfl⟩
  | cons pair rest ih =>
    rcases List.forall_mem_cons.mp tree with ⟨pairTree, restTree⟩
    rcases List.forall_mem_cons.mp array with ⟨pairArray, restArray⟩
    rcases ih restTree restArray with ⟨entries, described, others⟩
    rcases convert_of_arrayless options pairTree.1 pairArray.1 with ⟨k, keyDescribed, key⟩
    rcases convert_of_arrayless options pairTree.2 pairArray.2 with ⟨s, valueDescribed, value⟩
    refine ⟨(k, s) :: entries, .cons ⟨keyDescribed, valueDescribed⟩ described, ?_⟩
    have steps : MapStep.ofEntries ((k, s) :: entries) = .key k :: .value s :: MapStep.ofEntries entries := rfl
    rw [steps, Shape.convertSteps_entry key value others, asKey_toExpr options pairTree.1]
    rfl

/-- Described as a map, pairs of keys and values are converted without failure to the dictionary of the
described keys. It is the dictionary that is made of the same pairs by their types exactly if each key is keyed
alike in both ways. -/
theorem convert_pairs (options : ConvertOptions) {pairs : List (HostValue × HostValue)}
    (tree : ∀ pair ∈ pairs, pair.1.FreeOf isTree ∧ pair.2.FreeOf isTree)
    (array : ∀ pair ∈ pairs, pair.1.FreeOf isArray ∧ pair.2.FreeOf isArray) :
    ∃ entries e, List.Forall₂ Described pairs entries ∧
      (Shape.map (MapStep.ofEntries entries)).convert options = .ok e ∧
      e = .dictionary options.dictFormat
        (pairs.map fun (key, v) => (key.describedKey options, v.toExpr options)) ∧
      (e = dictionary options.dictFormat options pairs ↔ ∀ pair ∈ pairs, pair.1.KeyedAlike options) := by
  rcases convertSteps_of_arrayless options tree array with ⟨entries, described, converted⟩
  refine ⟨entries, _, described, Shape.convert_map converted, rfl, ?_⟩
  have same : ∀ pair ∈ pairs, (pair.1.describedKey options).keywordOrSelf = pair.1.toKey.keywordOrSelf →
      pair.1.describedKey options = pair.1.toKey :=
    fun pair _ => describedKey_eq_of_keywordOrSelf options
  refine (Expr.dictionary_eq_iff same).trans ?_
  exact forall₂_congr fun pair _ => describedKey_eq_toKey_iff options pair.1

/-- Text in a tuple is no text of the key itself, and a map without entries is written alike in both forms. -/
theorem convert_pairs_nested :
    let pairs : List (HostValue × HostValue) := [(.pointer (.char 'c'), .sequence [.int 1]),
      (.tuple [.present (.string "x"), .map []], .unit)]
    (∀ pair ∈ pairs, pair.1.FreeOf isTree ∧ pair.2.FreeOf isTree) ∧
      (∀ pair ∈ pairs, pair.1.FreeOf isArray ∧ pair.2.FreeOf isArray) ∧
      ∃ entries, List.Forall₂ Described pairs entries ∧
        (Shape.map (MapStep.ofEntries entries)).convert .plist = .ok (dictionary .plist .plist pairs) := by
  intro pairs
  have tree : ∀ pair ∈ pairs, pair.1.FreeOf isTree ∧ pair.2.FreeOf isTree := by
    simp [pairs, FreeOf, AllFreeOf, EntriesFreeOf, isTree]
  have array : ∀ pair ∈ pairs, pair.1.FreeOf isArray ∧ pair.2.FreeOf isArray := by
    simp [pairs, FreeOf, AllFreeOf, EntriesFreeOf, isArray]
  have alike : ∀ pair ∈ pairs, pair.1.KeyedAlike .plist := by
    simp [pairs, KeyedAlike, optionalText?, text?, FreeOf, AllFreeOf, EntriesFreeOf, isFilledMap]
  rcases convert_pairs .plist tree array with ⟨entries, e, described, converted, -, equal⟩
  exact ⟨tree, array, entries, described, converted.trans (congrArg _ (equal.mpr alike))⟩

/-- Text in an option, and under the form of property lists a map in a tuple: the first key is a symbol by its
description only, the second an association list by its type only. -/
theorem convert_pairs_apart :
    let optional : List (HostValue × HostValue) := [(.present (.string "a"), .unit)]
    let holding : List (HostValue × HostValue) := [(.tuple [.map [(.string "k", .int 1)]], .unit)]
    let described : List (Shape × Shape) := [(.present (.text "a"), .unit)]
    let holder : List (Shape × Shape) := [(.tuple [.map [.key (.text "k"), .value (.int 1)]], .unit)]
    (List.Forall₂ Described optional described ∧
      (Shape.map (MapStep.ofEntries described)).convert {} ≠ .ok (dictionary .alist {} optional)) ∧
    (List.Forall₂ Described holding holder ∧
      (Shape.map (MapStep.ofEntries holder)).convert .plist ≠ .ok (dictionary .plist .plist holding)) := by
  intro optional holding described holder
  have symbol : (Shape.map (MapStep.ofEntries described)).convert {} =
    .ok (.list [.cons (.named "a") .nil]) := rfl
  have string : dictionary .alist {} optional = .list [.cons (.string "a") .nil] := rfl
  have flat : (Shape.map (MapStep.ofEntries holder)).convert .plist =
    .ok (.list [.list [.list [.named ":k", .int 1]], .nil]) := rfl
  have paired : dictionary .plist .plist holding =
    .list [.list [.list [.cons (.named "k") (.int 1)]], .nil] := rfl
  rw [symbol, string, flat, paired]
  exact ⟨⟨.cons ⟨rfl, rfl⟩ .nil, nofun⟩, .cons ⟨rfl, rfl⟩ .nil, nofun⟩

end HostValue

end ElispBridge
