import ElispBridge.Proofs.Convert.Members
import Mathlib.Data.List.Nodup
/-!
Looking up a key in a converted map, from the left. In an association list the keys of a map stay apart. In
a property list two names become one keyword exactly if one of them is the other behind a colon, and then the
entry that comes first hides the other one.
-/

namespace ElispBridge

namespace Symbol

/-- The second name is the first behind a colon, and the first has no colon of its own. -/
def Colons (name other : String) : Prop :=
  Symbol.isKeyword ⟨name⟩ = false ∧ other.toList = ':' :: name.toList

theorem isKeyword_of_colons {name other : String} (h : Colons name other) :
    Symbol.isKeyword ⟨other⟩ = true := by
  rw [isKeyword, h.2]
  rfl

theorem keyword_eq_self {name : String} (h : Symbol.isKeyword ⟨name⟩ = true) : keyword name = ⟨name⟩ :=
  if_pos h

theorem keyword_eq_iff_colons {name other : String} (plain : Symbol.isKeyword ⟨name⟩ = false)
    (colon : Symbol.isKeyword ⟨other⟩ = true) : keyword name = keyword other ↔ Colons name other := by
  have added : keyword name = ⟨String.ofList (':' :: name.toList)⟩ := if_neg (by rw [plain]; decide)
  rw [added, keyword_eq_self colon, Symbol.mk.injEq, ← String.toList_inj, String.toList_ofList]
  exact ⟨fun same => ⟨plain, same.symm⟩, fun colons => colons.2.symm⟩

theorem keyword_eq_iff {name other : String} :
    keyword name = keyword other ↔ name = other ∨ Colons name other ∨ Colons other name := by
  cases colon : Symbol.isKeyword ⟨name⟩ with
  | true =>
    cases colon' : Symbol.isKeyword ⟨other⟩ with
    | true =>
      have left : ¬ Colons name other := fun colons => by cases colon.symm.trans colons.1
      have right : ¬ Colons other name := fun colons => by cases colon'.symm.trans colons.1
      rw [keyword_eq_self colon, keyword_eq_self colon', Symbol.mk.injEq, or_iff_left (not_or.mpr ⟨left, right⟩)]
    | false =>
      have ne : name ≠ other := by
        rintro rfl
        cases colon.symm.trans colon'
      have left : ¬ Colons name other := fun colons => by cases colon.symm.trans colons.1
      rw [eq_comm, keyword_eq_iff_colons colon' colon, or_iff_right ne, or_iff_right left]
  | false =>
    cases colon' : Symbol.isKeyword ⟨other⟩ with
    | true =>
      have ne : name ≠ other := by
        rintro rfl
        cases colon.symm.trans colon'
      have right : ¬ Colons other name := fun colons => by cases colon'.symm.trans colons.1
      rw [keyword_eq_iff_colons colon colon', or_iff_right ne, or_iff_left right]
    | false =>
      have left : ¬ Colons name other :=
        fun colons => by cases colon'.symm.trans (isKeyword_of_colons colons)
      have right : ¬ Colons other name :=
        fun colons => by cases colon.symm.trans (isKeyword_of_colons colons)
      rw [or_iff_left (not_or.mpr ⟨left, right⟩), keyword, keyword, if_neg (by rw [colon]; decide),
        if_neg (by rw [colon']; decide), Symbol.mk.injEq, String.ofList_inj, List.cons.injEq,
        String.toList_inj]
      exact and_iff_right rfl

/-- Different names that are one symbol as keys. -/
def Merged (format : DictFormat) (name other : String) : Prop :=
  format = .plist ∧ (Colons name other ∨ Colons other name)

theorem ofKey_eq_iff {format : DictFormat} {name other : String} :
    ofKey format name = ofKey format other ↔ name = other ∨ Merged format name other := by
  cases format with
  | alist =>
    have apart : ¬ Merged .alist name other := nofun
    rw [ofKey, ofKey, Symbol.mk.injEq, or_iff_left apart]
  | plist => rw [ofKey, ofKey, keyword_eq_iff, Merged, and_iff_right rfl]

end Symbol

namespace Expr

/-- The parts of cells, where nothing else is among the items. -/
def cells? : List Expr → Option (List (Expr × Expr))
  | [] => some []
  | .cons key value :: rest => (cells? rest).map ((key, value) :: ·)
  | _ => none

/-- The items two by two, where none is left over. -/
def properties? : List Expr → Option (List (Expr × Expr))
  | [] => some []
  | [_] => none
  | key :: value :: rest => (properties? rest).map ((key, value) :: ·)

def pairs? : DictFormat → List Expr → Option (List (Expr × Expr))
  | .alist, items => cells? items
  | .plist, items => properties? items

/-- The value of the first pair with that key. -/
def lookup? (format : DictFormat) (key e : Expr) : Option Expr :=
  (e.items?.bind (pairs? format)).bind fun pairs =>
    (pairs.find? fun pair => pair.1.equal key).map Prod.snd

theorem pairs?_entries {α : Type} (format : DictFormat) (key value : α → Expr) (items : List α) :
    pairs? format (items.flatMap fun a => entry format (key a) (value a)) =
      some (items.map fun a => (key a, value a)) := by
  induction items with
  | nil => cases format <;> rfl
  | cons a rest ih =>
    rw [List.flatMap_cons, List.map_cons]
    cases format with
    | alist =>
      simp only [pairs?, entry, List.singleton_append, cells?] at ih ⊢
      rw [ih, Option.map_some]
    | plist =>
      simp only [pairs?, entry, List.cons_append, List.nil_append, properties?] at ih ⊢
      rw [ih, Option.map_some]

theorem equal_symbol (s t : Symbol) : (Expr.symbol s).equal (.symbol t) = (s == t) := by
  rw [Expr.equal]

end Expr

namespace HostValue

open ElispBridge.Symbol (Merged ofKey_eq_iff)

variable {options : ConvertOptions} {v : HostValue} {entries : List (String × HostValue)}

theorem lookup?_toExpr (h : v.Lists entries) (name : String) :
    Expr.lookup? options.dictFormat (.symbol (.ofKey options.dictFormat name)) (v.toExpr options) =
      (entries.find? fun e => Symbol.ofKey options.dictFormat e.1 == .ofKey options.dictFormat name).map
        fun e => e.2.toExpr options := by
  rw [h.toExpr, Expr.lookup?, Expr.items?, Option.bind_some, Expr.pairs?_entries, Option.bind_some,
    List.find?_map, Option.map_map]
  simp only [Function.comp_def, Expr.equal_symbol]

/-- Names that are distinct are distinct as symbols, unless two of them merge. -/
theorem nodup_ofKey_iff {format : DictFormat} {names : List String} (distinct : names.Nodup) :
    (names.map (Symbol.ofKey format)).Nodup ↔ ∀ a ∈ names, ∀ b ∈ names, ¬ Merged format a b := by
  rw [List.nodup_map_iff_inj_on distinct]
  constructor
  · intro apart a ha b hb merged
    have same := apart a ha b hb (ofKey_eq_iff.mpr (.inr merged))
    subst same
    rcases merged.2 with colons | colons <;> cases colons.1.symm.trans (Symbol.isKeyword_of_colons colons)
  · intro apart a ha b hb same
    exact (ofKey_eq_iff.mp same).resolve_right (apart a ha b hb)

/-- A converted map has one entry for each entry of the map, in order, with the name's symbol as its key.
The keys are distinct exactly if no two names merge, as none do in an association list; and whoever looks
up the key of a name finds the value of that name, unless a name that merges with it comes before. -/
theorem lookup_finds (lists : v.Lists entries) (distinct : (entries.map Prod.fst).Nodup) :
    (∃ items, v.toExpr options = .list items ∧ Expr.pairs? options.dictFormat items =
      some (entries.map fun e => (.symbol (.ofKey options.dictFormat e.1), e.2.toExpr options))) ∧
    ((entries.map fun e => Symbol.ofKey options.dictFormat e.1).Nodup ↔
      ∀ a ∈ entries.map Prod.fst, ∀ b ∈ entries.map Prod.fst, ¬ Merged options.dictFormat a b) ∧
    ∀ before name w after, entries = before ++ (name, w) :: after →
      (∀ e ∈ before, ¬ Merged options.dictFormat e.1 name) →
      Expr.lookup? options.dictFormat (.symbol (.ofKey options.dictFormat name)) (v.toExpr options) =
        some (w.toExpr options) := by
  refine ⟨⟨_, lists.toExpr options, Expr.pairs?_entries _ _ _ _⟩, ?_, ?_⟩
  · rw [← nodup_ofKey_iff distinct, List.map_map]
    rfl
  · intro before name w after split unmerged
    have first : ∀ e ∈ before,
        (Symbol.ofKey options.dictFormat e.1 == .ofKey options.dictFormat name) = false := by
      intro e member
      rw [beq_eq_false_iff_ne, ne_eq, ofKey_eq_iff]
      rintro (same | merged)
      · rw [split, List.map_append, List.nodup_append] at distinct
        exact distinct.2.2 e.1 (List.mem_map_of_mem member) name List.mem_cons_self same
      · exact unmerged e member merged
    rw [lookup?_toExpr lists, split, List.find?_append, List.find?_eq_none.mpr (by simpa using first),
      Option.none_or, List.find?_cons_of_pos (by rw [beq_self_eq_true]), Option.map_some]

/-- An object with the empty name, a name of two colons and the keyword that it is not. -/
theorem lookup_finds_colons :
    let v : HostValue := .json (.object [(":a", .null), ("::a", .number (.positive 2)), ("", .string "c")])
    let entries : List (String × HostValue) :=
      [("", .json (.string "c")), ("::a", .json (.number (.positive 2))), (":a", .json .null)]
    v.Lists entries ∧ (entries.map Prod.fst).Nodup ∧ (∀ e ∈ entries.take 1, ¬ Merged .plist e.1 "::a") ∧
      Expr.lookup? .plist (.symbol (.ofKey .plist "::a")) (v.toExpr .plist) = some (.int 2) := by
  intro v entries
  have lists : v.Lists entries :=
    @Lists.json [(":a", .null), ("::a", .number (.positive 2)), ("", .string "c")]
  have distinct : (entries.map Prod.fst).Nodup := by decide
  have unmerged : ∀ e ∈ entries.take 1, ¬ Merged .plist e.1 "::a" := by
    intro e member
    rw [List.mem_singleton.mp member]
    rintro ⟨-, colons | colons⟩
    · cases colons.2
    · cases colons.1
  have found := (@lookup_finds .plist v entries lists distinct).2.2 _ "::a" _ _ rfl unmerged
  exact ⟨lists, distinct, unmerged, found⟩

/-- A name behind a colon comes first in a map and hides the name itself. -/
theorem lookup_misses_colon :
    let v : HostValue := .json (.object [("a", .number (.positive 1)), (":a", .number (.positive 2))])
    let entries : List (String × HostValue) :=
      [(":a", .json (.number (.positive 2))), ("a", .json (.number (.positive 1)))]
    v.Lists entries ∧ (entries.map Prod.fst).Nodup ∧
      ¬ (entries.map fun e => Symbol.ofKey .plist e.1).Nodup ∧
      Expr.lookup? .plist (.symbol (.ofKey .plist "a")) (v.toExpr .plist) = some (.int 2) ∧
      some ((HostValue.json (.number (.positive 1))).toExpr .plist) ≠ some (.int 2) := by
  intro v entries
  have lists : v.Lists entries := @Lists.json [("a", .number (.positive 1)), (":a", .number (.positive 2))]
  exact ⟨lists, by decide, by decide, rfl, nofun⟩

end HostValue

end ElispBridge
