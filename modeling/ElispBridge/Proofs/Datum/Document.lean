import ElispBridge.Proofs.Convert.Members
import ElispBridge.Proofs.Datum.Evaluation
/-!
Documents as a reader sees them. `Json.datum` has the structure of the document: an entry for each member of
an object and an item for each item of an array. The text of the converted document is read as that datum
exactly if the name of every member is read as one atom, for names are written as they are.
-/

namespace ElispBridge

namespace Datum

mutual

/-- Every atom in the datum is one for a reader. -/
def Atomic : Datum → Prop
  | .atom text => IsAtom text.toList
  | .string _ => True
  | .list items => AllAtomic items
  | .pair car cdr => car.Atomic ∧ cdr.Atomic
  | .quoted inner => inner.Atomic

def AllAtomic : List Datum → Prop
  | [] => True
  | d :: rest => d.Atomic ∧ AllAtomic rest

end

theorem allAtomic_iff {items : List Datum} : AllAtomic items ↔ ∀ d ∈ items, d.Atomic := by
  induction items with
  | nil => simp only [AllAtomic, List.not_mem_nil, false_implies, implies_true]
  | cons d rest ih => simp only [AllAtomic, ih, List.forall_mem_cons]

theorem atomic_foldr_pair {items : List Datum} {d : Datum} (h : AllAtomic items) (last : d.Atomic) :
    (items.foldr .pair d).Atomic := by
  induction items with
  | nil => exact last
  | cons item rest ih => exact ⟨h.1, ih h.2⟩

theorem atomic_readAtom {s left : List Char} {d : Datum} (h : readAtom s = some (d, left)) : d.Atomic := by
  unfold readAtom at h
  split at h
  · cases h
  · rename_i named
    cases h
    rcases not_or.mp named with ⟨nonempty, dot⟩
    rw [Atomic, String.toList_ofList]
    refine ⟨?_, nonempty, dot⟩
    intro c member
    have plain := List.mem_takeWhile_imp member
    rwa [Bool.not_eq_true'] at plain

-- One fuel for both readers: each gives the other one less.
theorem atomic_read (fuel : Nat) :
    (∀ {s left : List Char} {d : Datum}, readWithin fuel s = some (d, left) → d.Atomic) ∧
    (∀ {s left : List Char} {before : List Datum} {d : Datum}, AllAtomic before →
      readItems fuel before s = some (d, left) → d.Atomic) := by
  induction fuel with
  | zero =>
    constructor
    · intro s left d h
      cases h
    · intro s left before d known h
      cases h
  | succ fuel ih =>
    rcases ih with ⟨within, items⟩
    have nothing : AllAtomic [] := trivial
    constructor
    · intro s left d h
      rw [readWithin] at h
      split at h
      · cases h
      split at h
      · exact items nothing h
      split at h
      · rcases Option.map_eq_some_iff.mp h with ⟨⟨d, left⟩, inner, same⟩
        cases same
        rw [Atomic]
        exact within inner
      split at h
      · rcases Option.map_eq_some_iff.mp h with ⟨r, _, same⟩
        cases same
        exact trivial
      · exact atomic_readAtom h
    · intro s left before d known h
      rw [readItems] at h
      split at h
      · cases h
      split at h
      · cases h
        exact known
      split at h
      · split at h
        · cases h
        rename_i tail
        split at h
        · cases h
        split at h
        · cases h
          exact atomic_foldr_pair known (within tail)
        · cases h
      · split at h
        · cases h
        rename_i item
        refine items ?_ h
        rw [allAtomic_iff] at known ⊢
        exact List.forall_mem_append.mpr ⟨known, List.forall_mem_singleton.mpr (within item)⟩

theorem atomic_read? {s left : List Char} {d : Datum} (h : read? s = some (d, left)) : d.Atomic :=
  (atomic_read s.length).1 h

/-- A key and its value in a dictionary: a dotted pair, or the two one after the other. -/
def entry : DictFormat → Datum → Datum → List Datum
  | .alist, key, value => [.pair key value]
  | .plist, key, value => [key, value]

end Datum

namespace Json

mutual

/-- The structure of a document. Only an array in code has a quote mark. -/
def datum (format : DictFormat) : Context → Json → Datum
  | _, .null => .atom "nil"
  | _, .bool b => .atom (if b then "t" else "nil")
  | _, .number n => n.literal.datum
  | _, .string s => .string s
  | .code, .array items => .quoted (.list (datums format .data items))
  | .data, .array items => .list (datums format .data items)
  | ctx, .object members => .list ((Key.sorted (entries format (format.inside ctx) members)).flatMap Prod.snd)

def datums (format : DictFormat) : Context → List Json → List Datum
  | _, [] => []
  | ctx, j :: rest => j.datum format ctx :: datums format ctx rest

/-- The entry of each member, under the key by which the map orders it. -/
def entries (format : DictFormat) : Context → List (String × Json) → List (Key × List Datum)
  | _, [] => []
  | ctx, (name, j) :: rest =>
    (.string name, Datum.entry format (.atom (Symbol.ofKey format name).render) (j.datum format ctx)) ::
      entries format ctx rest

end

mutual

/-- The names of all members in a document, at any depth. -/
def names : Json → List String
  | .array items => namesAll items
  | .object members => (Key.sorted (memberNames members)).flatMap Prod.snd
  | _ => []

def namesAll : List Json → List String
  | [] => []
  | j :: rest => j.names ++ namesAll rest

def memberNames : List (String × Json) → List (Key × List String)
  | [] => []
  | (name, j) :: rest => (.string name, name :: j.names) :: memberNames rest

end

theorem entries_eq_map (format : DictFormat) (ctx : Context) (members : List (String × Json)) :
    entries format ctx members = members.map fun member => (.string member.1,
      Datum.entry format (.atom (Symbol.ofKey format member.1).render) (member.2.datum format ctx)) := by
  induction members with
  | nil => rfl
  | cons member rest ih =>
    rw [entries, ih]
    rfl

theorem memberNames_eq_map (members : List (String × Json)) :
    memberNames members = members.map fun member => (.string member.1, member.1 :: member.2.names) := by
  induction members with
  | nil => rfl
  | cons member rest ih =>
    rw [memberNames, ih]
    rfl

theorem datums_eq_map (format : DictFormat) (ctx : Context) (items : List Json) :
    datums format ctx items = items.map (datum format ctx) := by
  induction items with
  | nil => rfl
  | cons j rest ih => rw [datums, ih, List.map_cons]

theorem datum_object (format : DictFormat) (ctx : Context) (members : List (String × Json)) :
    (object members).datum format ctx = .list ((listed members).flatMap fun member =>
      Datum.entry format (.atom (Symbol.ofKey format member.1).render)
        (member.2.datum format (format.inside ctx))) := by
  cases ctx <;> rw [datum, entries_eq_map, sorted_map_members fun member : String × Json =>
    Datum.entry format (.atom (Symbol.ofKey format member.1).render)
      (member.2.datum format (format.inside _)), List.flatMap_map]

theorem names_array (items : List Json) : (array items).names = items.flatMap names := by
  rw [names]
  induction items with
  | nil => rfl
  | cons j rest ih => rw [namesAll, ih, List.flatMap_cons]

theorem names_object (members : List (String × Json)) :
    (object members).names = (listed members).flatMap fun member => member.1 :: member.2.names := by
  rw [names, memberNames_eq_map,
    sorted_map_members fun member : String × Json => member.1 :: member.2.names, List.flatMap_map]

end Json

theorem Expr.datums_eq_map (ctx : Context) (items : List Expr) :
    Expr.datums ctx items = items.map (Expr.datum ctx) := by
  induction items with
  | nil => rfl
  | cons e rest ih => rw [Expr.datums, ih, List.map_cons]

theorem Expr.datum_entry (format : DictFormat) (ctx : Context) (key : Symbol) (value : Expr) :
    (Expr.entry format (.symbol key) value).map (Expr.datum (format.inside ctx)) =
      Datum.entry format (.atom key.render) (value.datum (format.inside ctx)) := by
  cases format with
  | alist =>
    rw [Expr.entry, List.map_singleton, DictFormat.inside, Expr.datum, Symbol.datum_eq]
    rfl
  | plist =>
    rw [Expr.entry, List.map_cons, List.map_singleton, Symbol.datum_eq]
    rfl

/-- Entries of cells turn the list that holds them to data, and entries of symbols and values do not. -/
theorem Expr.datum_entries {α : Type} (format : DictFormat) (ctx : Context) (key : α → Symbol)
    (value : α → Expr) (items : List α) :
    (Expr.list (items.flatMap fun a => Expr.entry format (.symbol (key a)) (value a))).datum ctx =
      .list (items.flatMap fun a => Datum.entry format (.atom (key a).render)
        ((value a).datum (format.inside ctx))) := by
  rw [Expr.datum]
  cases items with
  | nil => rfl
  | cons a rest =>
    -- the first item decides for the whole list
    have context : (if ((a :: rest).flatMap fun a => Expr.entry format (.symbol (key a)) (value a)).head?.any
        Expr.isCons then Context.data else ctx) = format.inside ctx := by
      cases format <;> rfl
    rw [context, Expr.datums_eq_map, List.map_flatMap]
    simp only [Expr.datum_entry]

namespace Json

/-- The conversion has an entry for each member that the object's map lists, with the member's conversion. -/
theorem toExpr_object_entries (format : DictFormat) (members : List (String × Json)) :
    (object members).toExpr ⟨format⟩ = .list ((listed members).flatMap fun member =>
      Expr.entry format (.symbol (.ofKey format member.1)) (member.2.toExpr ⟨format⟩)) := by
  rw [toExpr_object, Expr.dictionary_named]

theorem datum_toExpr (format : DictFormat) (j : Json) :
    ∀ ctx, (j.toExpr ⟨format⟩).datum ctx = j.datum format ctx := by
  induction j with
  | null | string => exact fun _ => rfl
  | bool b =>
    intro ctx
    cases b <;> rfl
  | number n =>
    intro ctx
    rw [toExpr, n.toExpr_eq_literal, Expr.datum, datum]
  | array items ih =>
    intro ctx
    have each : (items.map (toExpr ⟨format⟩)).map (Expr.datum .data) = items.map (datum format .data) := by
      rw [List.map_map]
      exact List.map_congr_left fun j member => ih j member .data
    rw [toExpr_array]
    cases ctx with
    | code => rw [Expr.datum_quote_code, datum, Expr.datum, ite_self, Expr.datums_eq_map, each, datums_eq_map]
    | data => rw [Expr.datum_quote_data, datum, Expr.datum, ite_self, Expr.datums_eq_map, each, datums_eq_map]
  | object members ih =>
    intro ctx
    rw [toExpr_object_entries, Expr.datum_entries, datum_object]
    congr 1
    apply List.flatMap_congr
    intro member listed
    rw [ih member (mem_of_mem_listed listed)]

end Json

theorem Expr.allReadable_iff {items : List Expr} : Expr.AllReadable items ↔ ∀ e ∈ items, e.Readable := by
  induction items with
  | nil => simp only [Expr.AllReadable, List.not_mem_nil, false_implies, implies_true]
  | cons e rest ih => simp only [Expr.AllReadable, ih, List.forall_mem_cons]

theorem Expr.readable_entry {format : DictFormat} {key : Symbol} {value : Expr} (hk : key.Readable)
    (hv : value.Readable) : ∀ e ∈ Expr.entry format (.symbol key) value, e.Readable := by
  cases format with
  | alist => exact List.forall_mem_singleton.mpr ⟨hk, hv⟩
  | plist => exact List.forall_mem_cons.mpr ⟨hk, List.forall_mem_singleton.mpr hv⟩

theorem Symbol.readable_of_isAtom {s : Symbol} (h : Datum.IsAtom s.chars) : s.Readable := by
  by_cases empty : s.name = ""
  · rw [Symbol.chars, if_pos empty] at h
    refine ⟨?_, by rw [empty]; decide⟩
    rw [empty]
    nofun
  · rw [Symbol.chars, if_neg empty] at h
    refine ⟨h.plain, ?_⟩
    intro dot
    exact h.ne_dot (congrArg String.toList dot)

namespace Json

variable {format : DictFormat}

theorem readable_toExpr (j : Json) : (∀ name ∈ j.names, (Symbol.ofKey format name).Readable) →
    (j.toExpr ⟨format⟩).Readable := by
  induction j with
  | null => exact fun _ => ⟨Datum.plain_of_any rfl, by decide⟩
  | bool b =>
    intro _
    cases b <;> exact ⟨Datum.plain_of_any rfl, by decide⟩
  | number n =>
    intro _
    rw [toExpr, n.toExpr_eq_literal]
    trivial
  | string => exact fun _ => trivial
  | array items ih =>
    intro h
    rw [names_array] at h
    rw [toExpr_array]
    apply Expr.Readable.quote
    rw [Expr.Readable, Expr.allReadable_iff]
    intro e given
    rcases List.mem_map.mp given with ⟨j, member, rfl⟩
    exact ih j member fun name named => h name (List.mem_flatMap.mpr ⟨j, member, named⟩)
  | object members ih =>
    intro h
    rw [names_object] at h
    rw [toExpr_object_entries, Expr.Readable, Expr.allReadable_iff]
    intro e given
    rcases List.mem_flatMap.mp given with ⟨member, listed, part⟩
    have names : ∀ name ∈ member.1 :: member.2.names, (Symbol.ofKey format name).Readable :=
      fun name found => h name (List.mem_flatMap.mpr ⟨member, listed, found⟩)
    rcases List.forall_mem_cons.mp names with ⟨key, inner⟩
    have value := ih member (mem_of_mem_listed listed) inner
    exact Expr.readable_entry key value e part

theorem readable_of_atomic_entry {key : Symbol} {value : Datum}
    (h : ∀ d ∈ Datum.entry format (.atom key.render) value, d.Atomic) : key.Readable ∧ value.Atomic := by
  have atom (known : Datum.Atomic (.atom key.render)) : key.Readable := by
    rw [Datum.Atomic, Symbol.render, String.toList_ofList] at known
    exact Symbol.readable_of_isAtom known
  cases format with
  | alist => exact (List.forall_mem_singleton.mp h).imp_left atom
  | plist =>
    rcases List.forall_mem_cons.mp h with ⟨known, value⟩
    exact ⟨atom known, List.forall_mem_singleton.mp value⟩

theorem readable_of_atomic (j : Json) : ∀ {ctx : Context}, (j.datum format ctx).Atomic →
    ∀ name ∈ j.names, (Symbol.ofKey format name).Readable := by
  induction j with
  | null | bool | number | string =>
    intro _ _ name found
    cases found
  | array items ih =>
    intro ctx h name found
    rw [names_array] at found
    rcases List.mem_flatMap.mp found with ⟨j, member, named⟩
    have parts : Datum.AllAtomic (datums format .data items) := by
      cases ctx <;> exact h
    rw [datums_eq_map, Datum.allAtomic_iff] at parts
    exact ih j member (parts _ (List.mem_map_of_mem member)) name named
  | object members ih =>
    intro ctx h name found
    rw [datum_object, Datum.Atomic, Datum.allAtomic_iff] at h
    rw [names_object] at found
    rcases List.mem_flatMap.mp found with ⟨member, listed, named⟩
    have entry := readable_of_atomic_entry fun d part => h d (List.mem_flatMap.mpr ⟨member, listed, part⟩)
    rcases List.mem_cons.mp named with rfl | inner
    · exact entry.1
    · exact ih member (mem_of_mem_listed listed) entry.2 name inner

end Json

/-- The text of a converted document is read, to its end, as one datum of the document's structure exactly if
the name of each member is a readable key: one atom, which is not a lone dot. -/
theorem read_document_iff (format : DictFormat) (j : Json) :
    Datum.read? ((HostValue.json j).toExpr ⟨format⟩).render.toList = some (j.datum format .code, []) ↔
      ∀ name ∈ j.names, (Symbol.ofKey format name).Readable := by
  constructor
  · intro read
    exact j.readable_of_atomic (Datum.atomic_read? read)
  · intro readable
    have whole := (reads_chars .code _ (j.readable_toExpr readable)).read? Datum.ends_nil
    rw [List.append_nil, j.datum_toExpr] at whole
    rw [HostValue.toExpr, Expr.toList_render]
    exact whole

/-- Documents of one member that read as two entries, and one that does not read at all. -/
theorem read_document_spliced :
    let cells : Json := .object [("a . 1) (b", .number (.positive 2))]
    let properties : Json := .object [("a 1 :b", .number (.positive 2))]
    let dot : Json := .object [(".", .null)]
    (cells.datum .alist .code = .list [.pair (.atom "a . 1) (b") (.atom "2")] ∧
      Datum.read? ((HostValue.json cells).toExpr ⟨.alist⟩).render.toList =
        some (.list [.pair (.atom "a") (.atom "1"), .pair (.atom "b") (.atom "2")], [])) ∧
    (properties.datum .plist .code = .list [.atom ":a 1 :b", .atom "2"] ∧
      Datum.read? ((HostValue.json properties).toExpr ⟨.plist⟩).render.toList =
        some (.list [.atom ":a", .atom "1", .atom ":b", .atom "2"], [])) ∧
    Datum.read? ((HostValue.json dot).toExpr ⟨.alist⟩).render.toList = none := by
  -- the texts are computed, which names for the documents would stop
  dsimp only
  exact ⟨⟨rfl, rfl⟩, ⟨rfl, rfl⟩, rfl⟩

end ElispBridge
