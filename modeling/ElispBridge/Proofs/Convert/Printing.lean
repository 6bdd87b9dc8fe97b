import ElispBridge.Proofs.Binary64.Single
import ElispBridge.Proofs.Convert.Members
import ElispBridge.Proofs.Convert.Parts
/-!
Source text straight from a host value. Which marks show depends on the values around: a sequence has a
quote mark in code only, and what stands in an association list is data. Converting a value and rendering
the tree gives the same text. A number of 32 bits is written as the number of 64 bits that it is, in whatever
way it became one.
-/

namespace ElispBridge

/-- Texts between parentheses, with a space between any two. -/
def parenthesized (texts : List (List Char)) : List Char := '(' :: ([' '].intercalate texts ++ [')'])

def Context.mark : Context → List Char
  | .code => ['\'']
  | .data => []

/-- A name as the key of a dictionary. The empty name is `##` in an association list; in a property list
it is a lone colon, as every name has one there. -/
def nameText : DictFormat → List Char → List Char
  | .alist, [] => ['#', '#']
  | .alist, name => name
  | .plist, ':' :: name => ':' :: name
  | .plist, name => ':' :: name

def Key.text (format : DictFormat) : Key → List Char
  | .string s => nameText format s.toList
  | .char c => nameText format [c]
  | .bool b => nameText format (if b then "t" else "nil").toList
  | .unit | .optional none => nameText format "nil".toList
  | .int n | .optional (some n) => (Literal.int n).chars
  | .pair n s => parenthesized [(Literal.int n).chars, (Literal.string s).chars]

/-- Dotted pairs in an association list, keys and values in turn in a property list. -/
def DictFormat.text : DictFormat → List (Key × List Char) → List Char
  | .alist, entries => parenthesized (entries.map fun e =>
    '(' :: (e.1.text .alist ++ [' ', '.', ' '] ++ e.2 ++ [')']))
  | .plist, entries => parenthesized (entries.flatMap fun e => [e.1.text .plist, e.2])

namespace Json

mutual

/-- The members of an object are written in the order of its map. -/
def text (format : DictFormat) : Context → Json → List Char
  | _, .null => "nil".toList
  | _, .bool b => (if b then "t" else "nil").toList
  | _, .number n => n.literal.chars
  | _, .string s => (Literal.string s).chars
  | ctx, .array items => ctx.mark ++ parenthesized (texts format .data items)
  | ctx, .object members => format.text (Key.sorted (memberTexts format (format.inside ctx) members))

def texts (format : DictFormat) : Context → List Json → List (List Char)
  | _, [] => []
  | ctx, j :: rest => text format ctx j :: texts format ctx rest

def memberTexts (format : DictFormat) : Context → List (String × Json) → List (Key × List Char)
  | _, [] => []
  | ctx, (name, j) :: rest => (.string name, text format ctx j) :: memberTexts format ctx rest

end

end Json

namespace HostValue

mutual

def text (wide : Binary64.Widening) (format : DictFormat) : Context → HostValue → List Char
  | _, .bool b => (if b then "t" else "nil").toList
  | _, .unit | _, .absent => "nil".toList
  | ctx, .present v | ctx, .pointer v => text wide format ctx v
  | _, .int n => (Literal.int n).chars
  | _, .single bits => (Literal.float (wide.double bits)).chars
  | _, .float x => (Literal.float x).chars
  | _, .string s => (Literal.string s).chars
  | _, .char c => (Literal.string (String.singleton c)).chars
  | ctx, .sequence items | ctx, .array items =>
    ctx.mark ++ parenthesized (texts wide format .data items)
  | ctx, .tuple items => parenthesized (texts wide format ctx items)
  | ctx, .map entries => format.text (entryTexts wide format (format.inside ctx) entries)
  | ctx, .json j => j.text format ctx
  | ctx, .tree e => e.chars ctx

def texts (wide : Binary64.Widening) (format : DictFormat) : Context → List HostValue → List (List Char)
  | _, [] => []
  | ctx, v :: rest => text wide format ctx v :: texts wide format ctx rest

def entryTexts (wide : Binary64.Widening) (format : DictFormat) :
    Context → List (Key × HostValue) → List (Key × List Char)
  | _, [] => []
  | ctx, (key, v) :: rest => (key, text wide format ctx v) :: entryTexts wide format ctx rest

end

end HostValue

theorem Expr.spaced_eq_intercalate (ctx : Context) (items : List Expr) :
    Expr.spaced ctx items = [' '].intercalate (items.map (Expr.chars ctx)) := by
  induction items with
  | nil => rfl
  | cons e rest ih =>
    cases rest with
    | nil => simp [Expr.spaced, Expr.spacedTail, List.intercalate]
    | cons e' rest =>
      have tail : Expr.spacedTail ctx (e' :: rest) = ' ' :: Expr.spaced ctx (e' :: rest) := by
        rw [Expr.spacedTail, Expr.spaced]
      rw [Expr.spaced, tail, ih]
      simp [List.intercalate]

theorem Expr.chars_list (ctx : Context) (items : List Expr) : (Expr.list items).chars ctx =
    parenthesized (items.map (Expr.chars (ctx.inside items))) := by
  cases ctx <;> rw [Expr.chars, Expr.spaced_eq_intercalate, parenthesized]

theorem Symbol.chars_eq_nameText (name : String) : Symbol.chars ⟨name⟩ = nameText .alist name.toList := by
  unfold Symbol.chars
  split
  · rename_i empty
    have same : name = "" := empty
    rw [same]
    rfl
  · rename_i nonempty
    have some : name.toList ≠ [] := by simpa using nonempty
    cases text : name.toList with
    | nil => exact absurd text some
    | cons c rest => rw [nameText]; exact fun h => nomatch h

theorem Symbol.chars_toKeyword (name : String) :
    (Symbol.toKeyword ⟨name⟩).chars = nameText .plist name.toList := by
  have keyword (text : List Char) : Symbol.chars ⟨String.ofList (':' :: text)⟩ = ':' :: text := by
    rw [Symbol.chars_eq_nameText, String.toList_ofList]
    rfl
  unfold Symbol.toKeyword Symbol.keyword Symbol.isKeyword
  cases text : name.toList with
  | nil => exact keyword []
  | cons c rest =>
    by_cases colon : c = ':'
    · subst c
      have same : name = String.ofList (':' :: rest) := by rw [← text, String.ofList_toList]
      rw [if_pos (by rfl), same]
      exact keyword rest
    · have other : ((c :: rest).head? == some ':') = false := by simpa using colon
      rw [if_neg (by rw [other]; decide), keyword]
      unfold nameText
      split <;> simp_all

namespace Key

theorem chars_pair (ctx : Context) (n : Int) (s : String) :
    (Expr.list [.int n, .string s]).chars ctx =
      parenthesized [(Literal.int n).chars, (Literal.string s).chars] := by
  rw [Expr.chars_list]
  rfl

theorem chars_toExpr (key : Key) (ctx : Context) : key.toExpr.chars ctx = key.text .alist := by
  cases key with
  | string s => exact Symbol.chars_eq_nameText s
  | char c => rw [toExpr, Expr.named, Expr.chars, Symbol.chars_eq_nameText, String.toList_singleton]; rfl
  | int n => rfl
  | bool b => cases b <;> rfl
  | unit => rfl
  | optional n => cases n <;> rfl
  | pair n s => exact chars_pair ctx n s

theorem chars_keywordOrSelf (key : Key) (ctx : Context) :
    key.toExpr.keywordOrSelf.chars ctx = key.text .plist := by
  cases key with
  | string s => exact Symbol.chars_toKeyword s
  | char c =>
    have keyword := Symbol.chars_toKeyword (String.singleton c)
    rwa [String.toList_singleton] at keyword
  | int n => rfl
  | bool b => cases b <;> rfl
  | unit => rfl
  | optional n => cases n <;> rfl
  | pair n s => exact chars_pair ctx n s

theorem keywordOrSelf_ne_cons (key : Key) (car cdr : Expr) :
    key.toExpr.keywordOrSelf ≠ .cons car cdr := by
  cases key with
  | optional n => cases n <;> exact nofun
  | string | char | int | bool | unit | pair => exact nofun

end Key

namespace Expr

/-- A list that does not start with a cell leaves the context of its items as it is. -/
theorem chars_list_map {α : Type} (f : α → Expr) (ctx : Context) {items : List α}
    (h : ∀ a ∈ items, ∀ car cdr, f a ≠ .cons car cdr) :
    (Expr.list (items.map f)).chars ctx = parenthesized (items.map fun a => (f a).chars ctx) := by
  have inside : ctx.inside (items.map f) = ctx := by
    cases items with
    | nil => rfl
    | cons a rest => exact Context.inside_of_ne_cons (h a List.mem_cons_self) ctx _
  rw [chars_list, inside, List.map_map]
  rfl

theorem chars_dictionary {α : Type} (format : DictFormat) (ctx : Context) (key : α → Key) (value : α → Expr)
    (items : List α) : (dictionary format (items.map fun a => ((key a).toExpr, value a))).chars ctx =
      format.text (items.map fun a => (key a, (value a).chars (format.inside ctx))) := by
  cases format with
  | alist =>
    have cells : dictionary .alist (items.map fun a => ((key a).toExpr, value a)) =
        .list (items.map fun a => .cons (key a).toExpr (value a)) := by
      rw [dictionary, alist, List.map_map]
      rfl
    rw [cells, chars_list, DictFormat.text, List.map_map, List.map_map]
    cases items with
    | nil => rfl
    | cons a rest =>
      -- the first cell turns the list to data
      have data : ctx.inside ((a :: rest).map fun a => .cons (key a).toExpr (value a)) = .data := by
        cases ctx <;> rfl
      rw [data]
      congr 1
      apply List.map_congr_left
      intro a _
      rw [Function.comp_apply, Expr.chars, (key a).chars_toExpr]
      rfl
  | plist =>
    have turns : dictionary .plist (items.map fun a => ((key a).toExpr, value a)) =
        .list (items.flatMap fun a => [(key a).toExpr.keywordOrSelf, value a]) := by
      rw [dictionary, plist, List.flatMap_map]
    have inside : ctx.inside (items.flatMap fun a => [(key a).toExpr.keywordOrSelf, value a]) = ctx := by
      cases items with
      | nil => rfl
      | cons a rest => exact Context.inside_of_ne_cons (key a).keywordOrSelf_ne_cons _ _
    rw [turns, chars_list, inside, DictFormat.text, List.map_flatMap, List.flatMap_map]
    simp only [List.map_cons, List.map_nil, Key.chars_keywordOrSelf, DictFormat.inside]

end Expr

namespace Json

theorem texts_eq_map (format : DictFormat) (ctx : Context) (items : List Json) :
    texts format ctx items = items.map (text format ctx) := by
  induction items with
  | nil => rfl
  | cons j rest ih => rw [texts, ih, List.map_cons]

theorem memberTexts_eq_map (format : DictFormat) (ctx : Context) (members : List (String × Json)) :
    memberTexts format ctx members =
      members.map fun member => (.string member.1, member.2.text format ctx) := by
  induction members with
  | nil => rfl
  | cons member rest ih =>
    rw [memberTexts, ih]
    rfl

theorem text_object (format : DictFormat) (ctx : Context) (members : List (String × Json)) :
    (object members).text format ctx = format.text ((listed members).map fun member =>
      (.string member.1, member.2.text format (format.inside ctx))) := by
  rw [text, memberTexts_eq_map,
    sorted_map_members fun member : String × Json => member.2.text format (format.inside ctx)]

theorem toExpr_ne_cons (options : ConvertOptions) (j : Json) (car cdr : Expr) :
    j.toExpr options ≠ .cons car cdr := by
  intro same
  cases j with
  | number n =>
    rw [toExpr, n.toExpr_eq_literal] at same
    cases same
  | object members =>
    rw [toExpr] at same
    cases format : options.dictFormat <;> rw [format] at same <;> cases same
  | null | bool | string | array => cases same

theorem chars_toExpr (options : ConvertOptions) (j : Json) :
    ∀ ctx, (j.toExpr options).chars ctx = j.text options.dictFormat ctx := by
  induction j with
  | null | string => exact fun _ => rfl
  | bool b =>
    intro ctx
    cases b <;> rfl
  | number n =>
    intro ctx
    rw [toExpr, n.toExpr_eq_literal, Expr.chars, text]
  | array items ih =>
    intro ctx
    have list : (Expr.list (items.map (toExpr options))).chars .data =
        parenthesized (texts options.dictFormat .data items) := by
      rw [Expr.chars_list_map _ _ fun j _ => j.toExpr_ne_cons options, texts_eq_map]
      exact congrArg parenthesized (List.map_congr_left fun j member => ih j member .data)
    rw [toExpr_array]
    cases ctx with
    | code => rw [Expr.chars_quote_code, list, text]; rfl
    | data => rw [Expr.chars_quote_data, list, text]; rfl
  | object members ih =>
    intro ctx
    rw [toExpr_object, text_object]
    refine (Expr.chars_dictionary options.dictFormat ctx (fun member => .string member.1)
      (fun member => member.2.toExpr options) (listed members)).trans (congrArg _ ?_)
    apply List.map_congr_left
    intro member listed
    rw [ih member (mem_of_mem_listed listed)]

end Json

namespace HostValue

theorem toExpr_ne_cons (options : ConvertOptions) (car cdr : Expr) :
    ∀ {v : HostValue}, v.FreeOf isTree → v.toExpr options ≠ .cons car cdr
  | .present _, h | .pointer _, h => by
    rw [toExpr]
    exact toExpr_ne_cons options car cdr h.2
  | .map _, _ => by
    intro same
    rw [toExpr] at same
    cases format : options.dictFormat <;> rw [format] at same <;> cases same
  | .json j, _ => j.toExpr_ne_cons options car cdr
  | .bool _, _ | .unit, _ | .absent, _ | .int _, _ | .single _, _ | .float _, _ | .string _, _
  | .char _, _ | .sequence _, _ | .array _, _ | .tuple _, _ => by
    intro same
    cases same

variable (wide : Binary64.Widening) (options : ConvertOptions)

mutual

theorem chars_toExpr : ∀ (ctx : Context) {v : HostValue}, v.FreeOf isTree →
    (v.toExpr options).chars ctx = v.text wide options.dictFormat ctx
  | _, .bool b, _ => by cases b <;> rfl
  | _, .single bits, _ => (wide.text_double bits).symm
  | _, .unit, _ | _, .absent, _ | _, .int _, _ | _, .float _, _ | _, .string _, _ | _, .char _, _ => rfl
  | ctx, .present _, h | ctx, .pointer _, h => by rw [toExpr, text, chars_toExpr ctx h.2]
  | ctx, .sequence _, h | ctx, .array _, h => by
    have list := chars_list .data h.2
    cases ctx <;> simp only [toExpr, text, Expr.chars_quote_code, Expr.chars_quote_data, list,
      Context.mark, List.cons_append, List.nil_append]
  | ctx, .tuple _, h => by rw [toExpr, text, chars_list ctx h.2]
  | ctx, .map entries, h => by
    rw [toExpr, text, toPairs_eq_map, ← chars_entries _ h.2]
    exact Expr.chars_dictionary options.dictFormat ctx Prod.fst (fun e => e.2.toExpr options) entries
  | ctx, .json j, _ => j.chars_toExpr options ctx

theorem chars_list (ctx : Context) {items : List HostValue} (h : AllFreeOf isTree items) :
    (Expr.list (toExprs options items)).chars ctx =
      parenthesized (texts wide options.dictFormat ctx items) := by
  have code : ∀ v ∈ items, ∀ car cdr, v.toExpr options ≠ .cons car cdr :=
    fun v member car cdr => toExpr_ne_cons options car cdr (allFreeOf_iff.mp h v member)
  rw [toExprs_eq_map, Expr.chars_list_map _ _ code, chars_each ctx h]

theorem chars_each (ctx : Context) : ∀ {items : List HostValue}, AllFreeOf isTree items →
    (items.map fun v => (v.toExpr options).chars ctx) = texts wide options.dictFormat ctx items
  | [], _ => rfl
  | _ :: _, h => by rw [List.map_cons, texts, chars_toExpr ctx h.1, chars_each ctx h.2]

theorem chars_entries (ctx : Context) : ∀ {entries : List (Key × HostValue)}, EntriesFreeOf isTree entries →
    (entries.map fun e => (e.1, (e.2.toExpr options).chars ctx)) =
      entryTexts wide options.dictFormat ctx entries
  | [], _ => rfl
  | (_, _) :: _, h => by rw [List.map_cons, entryTexts, chars_toExpr ctx h.1, chars_entries ctx h.2]

end

/-- Converting a value without trees of syntax and rendering what comes of it gives the text of the
value in code. -/
theorem render_toExpr {v : HostValue} (h : v.FreeOf isTree) :
    (v.toExpr options).render = String.ofList (v.text wide options.dictFormat .code) := by
  rw [Expr.render, chars_toExpr wide options .code h]

/-- Maps, a sequence and a tuple in both forms: an empty key, a key with a colon of its own, a tenth with 32
bits, and sequences whose quote mark shows in code only. -/
theorem render_toExpr_map :
    let v : HostValue := .map [(.string "", .tuple [.sequence [.int 1, .absent], .single 0x3dcccccd]),
      (.string ":a", .json (.object [("b", .array [.bool true, .number (.negative (-1))])])),
      (.bool false, .char '"')]
    v.FreeOf isTree ∧
      (v.toExpr {}).render =
        "((## . ((1 nil) 0.10000000149011612)) (:a . ((b . (t -1)))) (nil . \"\\\"\"))" ∧
      (v.toExpr .plist).render = "(: ('(1 nil) 0.10000000149011612) :a (:b '(t -1)) :nil \"\\\"\")" := by
  intro v
  have free : v.FreeOf isTree := ⟨rfl, ⟨rfl, ⟨rfl, rfl, rfl, trivial⟩, rfl, trivial⟩, rfl, rfl, trivial⟩
  refine ⟨free, ?_, ?_⟩
  · rw [render_toExpr .standard {} free]
    decide +kernel
  · rw [render_toExpr .standard .plist free]
    decide +kernel

end HostValue

end ElispBridge
