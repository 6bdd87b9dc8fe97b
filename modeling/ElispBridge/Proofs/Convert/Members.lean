import ElispBridge.Convert.HostValue
import ElispBridge.Expr.Render
import Mathlib.Data.List.Nodup
/-!
Maps whose keys are text, and JSON part by part. An object converts by its members, which its map lists in the
order of their names, of members with one name the last only. With distinct names all members are listed, each
once.
-/

namespace ElispBridge

namespace Key

variable {α β : Type}

theorem insert_map (f : α → β) (key : Key) (value : α) (entries : List (Key × α)) :
    insert key (f value) (entries.map fun e => (e.1, f e.2)) =
      (insert key value entries).map fun e => (e.1, f e.2) := by
  induction entries with
  | nil => rfl
  | cons entry rest ih =>
    rcases entry with ⟨k, a⟩
    rw [List.map_cons, insert, insert]
    by_cases same : key = k
    · rw [if_pos same, if_pos same, List.map_cons]
    by_cases first : key.before k = true
    · rw [if_neg same, if_neg same, if_pos first, if_pos first, List.map_cons, List.map_cons]
    · rw [if_neg same, if_neg same, if_neg first, if_neg first, List.map_cons, ih]

theorem foldl_insert_map (f : α → β) (entries map : List (Key × α)) :
    (entries.map fun e => (e.1, f e.2)).foldl (fun map (key, value) => insert key value map)
        (map.map fun e => (e.1, f e.2)) =
      (entries.foldl (fun map (key, value) => insert key value map) map).map fun e => (e.1, f e.2) := by
  induction entries generalizing map with
  | nil => rfl
  | cons entry rest ih =>
    simp only [List.map_cons, List.foldl_cons, insert_map, ih]

/-- Where an entry is listed depends on its key alone. -/
theorem sorted_map (f : α → β) (entries : List (Key × α)) :
    sorted (entries.map fun e => (e.1, f e.2)) = (sorted entries).map fun e => (e.1, f e.2) :=
  foldl_insert_map f entries []

theorem insert_perm {key : Key} {entries : List (Key × α)} (fresh : key ∉ entries.map Prod.fst)
    (value : α) : (insert key value entries).Perm ((key, value) :: entries) := by
  induction entries with
  | nil => exact List.Perm.refl _
  | cons entry rest ih =>
    rcases entry with ⟨k, a⟩
    rcases not_or.mp (mt List.mem_cons.mpr fresh) with ⟨other, absent⟩
    rw [insert, if_neg other]
    by_cases first : key.before k = true
    · rw [if_pos first]
    · rw [if_neg first]
      exact ((ih absent).cons _).trans (List.Perm.swap _ _ _)

theorem foldl_insert_perm {entries map : List (Key × α)}
    (distinct : ((map ++ entries).map Prod.fst).Nodup) :
    (entries.foldl (fun map (key, value) => insert key value map) map).Perm (map ++ entries) := by
  induction entries generalizing map with
  | nil => rw [List.append_nil, List.foldl_nil]
  | cons entry rest ih =>
    rcases entry with ⟨key, value⟩
    -- the entry is fresh in the map, so putting it in only adds it, at some place
    have moved : ((key, value) :: (map ++ rest)).Perm (map ++ (key, value) :: rest) :=
      List.perm_middle.symm
    have keys := (moved.map Prod.fst).nodup_iff.mpr distinct
    have fresh : key ∉ map.map Prod.fst := by
      intro member
      refine (List.nodup_cons.mp keys).1 ?_
      rw [List.map_append]
      exact List.mem_append_left _ member
    have added := (insert_perm fresh value).append_right rest
    have nodup := (added.map Prod.fst).nodup_iff.mpr keys
    exact ((ih nodup).trans added).trans moved

theorem sorted_perm {entries : List (Key × α)} (distinct : (entries.map Prod.fst).Nodup) :
    (sorted entries).Perm entries := by
  rw [sorted]
  exact foldl_insert_perm distinct

theorem mem_of_mem_insert {key : Key} {value : α} {entries : List (Key × α)} {e : Key × α}
    (h : e ∈ insert key value entries) : e = (key, value) ∨ e ∈ entries := by
  induction entries with
  | nil => exact .inl (List.mem_singleton.mp h)
  | cons entry rest ih =>
    rcases entry with ⟨k, a⟩
    unfold insert at h
    split at h
    · rcases List.mem_cons.mp h with new | old
      · exact .inl new
      · exact .inr (List.mem_cons_of_mem _ old)
    split at h
    · exact List.mem_cons.mp h
    · rcases List.mem_cons.mp h with rfl | later
      · exact .inr List.mem_cons_self
      · exact (ih later).imp_right (List.mem_cons_of_mem _)

theorem mem_of_mem_foldl_insert {entries map : List (Key × α)} {e : Key × α}
    (h : e ∈ entries.foldl (fun map (key, value) => insert key value map) map) :
    e ∈ map ∨ e ∈ entries := by
  induction entries generalizing map with
  | nil => exact .inl h
  | cons entry rest ih =>
    rcases ih h with listed | later
    · rcases mem_of_mem_insert listed with rfl | old
      · exact .inr List.mem_cons_self
      · exact .inl old
    · exact .inr (List.mem_cons_of_mem _ later)

theorem mem_of_mem_sorted {entries : List (Key × α)} {e : Key × α} (h : e ∈ sorted entries) :
    e ∈ entries :=
  (mem_of_mem_foldl_insert h).resolve_left List.not_mem_nil

theorem insert_ne_nil (key : Key) (value : α) (entries : List (Key × α)) : insert key value entries ≠ [] := by
  cases entries with
  | nil => exact nofun
  | cons entry rest =>
    rcases entry with ⟨k, a⟩
    unfold insert
    split
    · exact nofun
    · split <;> exact nofun

theorem foldl_insert_ne_nil (entries : List (Key × α)) {map : List (Key × α)} (h : map ≠ []) :
    entries.foldl (fun map (key, value) => insert key value map) map ≠ [] := by
  induction entries generalizing map with
  | nil => exact h
  | cons entry rest ih => exact ih (insert_ne_nil entry.1 entry.2 map)

theorem sorted_eq_nil_iff {entries : List (Key × α)} : sorted entries = [] ↔ entries = [] := by
  cases entries with
  | nil => exact iff_of_true rfl rfl
  | cons entry rest =>
    have filled : sorted (entry :: rest) ≠ [] := foldl_insert_ne_nil rest (insert_ne_nil entry.1 entry.2 [])
    exact iff_of_false filled (List.cons_ne_nil entry rest)

end Key

namespace Json

/-- Each member under its name as a key. -/
def keyed (members : List (String × Json)) : List (Key × (String × Json)) :=
  members.map fun member => (.string member.1, member)

/-- The members that the map of an object lists, in the order in which it lists them. -/
def listed (members : List (String × Json)) : List (String × Json) :=
  (Key.sorted (keyed members)).map Prod.snd

theorem eq_keyed_of_mem_sorted {members : List (String × Json)} {e : Key × (String × Json)}
    (h : e ∈ Key.sorted (keyed members)) : e = (.string e.2.1, e.2) ∧ e.2 ∈ members := by
  rcases List.mem_map.mp (Key.mem_of_mem_sorted h) with ⟨member, given, rfl⟩
  exact ⟨rfl, given⟩

theorem mem_of_mem_listed {members : List (String × Json)} {member : String × Json}
    (h : member ∈ listed members) : member ∈ members := by
  rcases List.mem_map.mp h with ⟨e, entry, rfl⟩
  exact (eq_keyed_of_mem_sorted entry).2

theorem listed_eq_nil_iff {members : List (String × Json)} : listed members = [] ↔ members = [] := by
  rw [listed, List.map_eq_nil_iff, Key.sorted_eq_nil_iff, keyed, List.map_eq_nil_iff]

/-- With distinct names no member is left out and none is listed twice. -/
theorem listed_perm {members : List (String × Json)} (distinct : (members.map Prod.fst).Nodup) :
    (listed members).Perm members := by
  have keys : (keyed members).map Prod.fst = (members.map Prod.fst).map Key.string := by
    rw [keyed, List.map_map, List.map_map]
    rfl
  have nodup : ((keyed members).map Prod.fst).Nodup := by
    rw [keys]
    exact distinct.map fun _ _ same => Key.string.inj same
  have members_eq : (keyed members).map Prod.snd = members := by
    rw [keyed, List.map_map]
    exact List.map_id members
  have whole := (Key.sorted_perm nodup).map Prod.snd
  rwa [members_eq] at whole

/-- What is made of each member is listed as the members are. -/
theorem sorted_map_members {α : Type} (f : String × Json → α) (members : List (String × Json)) :
    Key.sorted (members.map fun member => (.string member.1, f member)) =
      (listed members).map fun member => (.string member.1, f member) := by
  have pairs : (members.map fun member => ((.string member.1, f member) : Key × α)) =
      (keyed members).map fun e => (e.1, f e.2) := by
    rw [keyed, List.map_map]
    rfl
  rw [pairs, Key.sorted_map, listed, List.map_map]
  apply List.map_congr_left
  intro e member
  rw [(eq_keyed_of_mem_sorted member).1]
  rfl

variable {options : ConvertOptions}

theorem toExprs_eq_map (items : List Json) : toExprs options items = items.map (toExpr options) := by
  induction items with
  | nil => rfl
  | cons j rest ih => rw [toExprs, ih, List.map_cons]

theorem toPairs_eq_map (members : List (String × Json)) : toPairs options members =
    members.map fun member => (.string member.1, member.2.toExpr options) := by
  induction members with
  | nil => rfl
  | cons member rest ih =>
    rw [toPairs, ih]
    rfl

/-- What a number is written as: an integer or a float, as it is held. -/
def Number.literal : Number → Literal
  | positive n => .int n.toNat
  | negative n => .int n.toInt
  | float x => .float x

theorem Number.toExpr_eq_literal (n : Number) : n.toExpr = .literal n.literal := by
  cases n with
  | positive n =>
    by_cases small : n.toNat < twoTo 63
    · have half : 2 * n.toNat < 2 ^ 64 := by
        rw [twoTo, Nat.pow_eq] at small
        omega
      have fits : n.toInt64.toInt = n.toNat := BitVec.toInt_eq_toNat_of_lt half
      rw [toExpr, asI64?, if_pos small]
      exact congrArg Expr.int fits
    · rw [toExpr, asI64?, if_neg small]
      rfl
  | negative n => rfl
  | float x => rfl

theorem toExpr_array (items : List Json) :
    (array items).toExpr options = (Expr.list (items.map (toExpr options))).quote := by
  rw [toExpr, toExprs_eq_map]

theorem toExpr_object (members : List (String × Json)) : (object members).toExpr options =
    .dictionary options.dictFormat
      ((listed members).map fun member => (.named member.1, member.2.toExpr options)) := by
  rw [toExpr, toPairs_eq_map, sorted_map_members fun member : String × Json => member.2.toExpr options,
    List.map_map]
  rfl

end Json

/-- What stands in an association list is data. -/
def DictFormat.inside : DictFormat → Context → Context
  | .alist, _ => .data
  | .plist, ctx => ctx

namespace Symbol

/-- The symbol that a name is as a key. -/
def ofKey : DictFormat → String → Symbol
  | .alist, name => ⟨name⟩
  | .plist, name => keyword name

end Symbol

namespace Expr

/-- What a dictionary holds for a key and its value: a cell, or the two one after the other. -/
def entry : DictFormat → Expr → Expr → List Expr
  | .alist, key, value => [.cons key value]
  | .plist, key, value => [key, value]

theorem dictionary_named {α : Type} (format : DictFormat) (name : α → String) (value : α → Expr)
    (items : List α) : dictionary format (items.map fun a => (named (name a), value a)) =
      .list (items.flatMap fun a => entry format (.symbol (.ofKey format (name a))) (value a)) := by
  cases format with
  | alist =>
    rw [dictionary, alist, List.map_map]
    exact congrArg Expr.list List.map_eq_flatMap
  | plist =>
    rw [dictionary, plist, List.flatMap_map]
    rfl

end Expr

namespace HostValue

theorem toExprs_eq_map (options : ConvertOptions) (items : List HostValue) :
    toExprs options items = items.map (toExpr options) := by
  induction items with
  | nil => rfl
  | cons v rest ih => rw [toExprs, ih, List.map_cons]

theorem toPairs_eq_map (options : ConvertOptions) (entries : List (Key × HostValue)) :
    toPairs options entries = entries.map fun e => (e.1.toExpr, e.2.toExpr options) := by
  induction entries with
  | nil => rfl
  | cons e rest ih =>
    rw [toPairs, ih]
    rfl

/-- The value is a map, perhaps as JSON, that lists these entries. -/
inductive Lists : HostValue → List (String × HostValue) → Prop
  | map {entries : List (String × HostValue)} :
    Lists (.map (entries.map fun e => (.string e.1, e.2))) entries
  | json {members : List (String × Json)} :
    Lists (.json (.object members)) ((Json.listed members).map fun member => (member.1, .json member.2))

theorem Lists.toExpr {v : HostValue} {entries : List (String × HostValue)} (h : v.Lists entries)
    (options : ConvertOptions) : v.toExpr options = .list (entries.flatMap fun e =>
      Expr.entry options.dictFormat (.symbol (Symbol.ofKey options.dictFormat e.1)) (e.2.toExpr options)) := by
  cases h with
  | map =>
    rw [HostValue.toExpr, toPairs_eq_map, List.map_map]
    exact Expr.dictionary_named options.dictFormat Prod.fst (fun e => e.2.toExpr options) entries
  | json =>
    rw [HostValue.toExpr, Json.toExpr_object, Expr.dictionary_named, List.flatMap_map]
    rfl

end HostValue

end ElispBridge
