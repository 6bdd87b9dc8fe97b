import ElispBridge.Convert.HostValue
/-!
Conditions on all parts of a host value: that none of them is of some kind, and what becomes of a value
when every array in it is read as a tuple.
-/

namespace ElispBridge.HostValue

def isTree : HostValue → Bool
  | .tree _ => true
  | _ => false

def isArray : HostValue → Bool
  | .array _ => true
  | _ => false

mutual

/-- Neither the value nor any part of it is of the kind. -/
def FreeOf (kind : HostValue → Bool) : HostValue → Prop
  | .present v => kind (.present v) = false ∧ v.FreeOf kind
  | .pointer v => kind (.pointer v) = false ∧ v.FreeOf kind
  | .sequence items => kind (.sequence items) = false ∧ AllFreeOf kind items
  | .array items => kind (.array items) = false ∧ AllFreeOf kind items
  | .tuple items => kind (.tuple items) = false ∧ AllFreeOf kind items
  | .map entries => kind (.map entries) = false ∧ EntriesFreeOf kind entries
  | v => kind v = false

def AllFreeOf (kind : HostValue → Bool) : List HostValue → Prop
  | [] => True
  | v :: rest => v.FreeOf kind ∧ AllFreeOf kind rest

def EntriesFreeOf (kind : HostValue → Bool) : List (Key × HostValue) → Prop
  | [] => True
  | (_, v) :: rest => v.FreeOf kind ∧ EntriesFreeOf kind rest

end

theorem allFreeOf_iff {kind : HostValue → Bool} {items : List HostValue} :
    AllFreeOf kind items ↔ ∀ v ∈ items, v.FreeOf kind := by
  induction items with
  | nil => simp only [AllFreeOf, List.not_mem_nil, false_implies, implies_true]
  | cons v rest ih => simp only [AllFreeOf, ih, List.forall_mem_cons]

mutual

def arraysAsTuples : HostValue → HostValue
  | .present v => .present v.arraysAsTuples
  | .pointer v => .pointer v.arraysAsTuples
  | .sequence items => .sequence (allArraysAsTuples items)
  | .array items | .tuple items => .tuple (allArraysAsTuples items)
  | .map entries => .map (entriesArraysAsTuples entries)
  | v => v

def allArraysAsTuples : List HostValue → List HostValue
  | [] => []
  | v :: rest => v.arraysAsTuples :: allArraysAsTuples rest

def entriesArraysAsTuples : List (Key × HostValue) → List (Key × HostValue)
  | [] => []
  | (key, v) :: rest => (key, v.arraysAsTuples) :: entriesArraysAsTuples rest

end

mutual

theorem arraysAsTuples_eq_self : ∀ {v : HostValue}, v.FreeOf isArray → v.arraysAsTuples = v
  | .present _, h | .pointer _, h => by
    rw [arraysAsTuples, arraysAsTuples_eq_self h.2]
  | .sequence _, h | .tuple _, h => by rw [arraysAsTuples, allArraysAsTuples_eq_self h.2]
  | .map _, h => by rw [arraysAsTuples, entriesArraysAsTuples_eq_self h.2]
  | .array _, h => nomatch h.1
  | .bool _, _ | .unit, _ | .absent, _ | .int _, _ | .single _, _ | .float _, _ | .string _, _
  | .char _, _ | .json _, _ | .tree _, _ => rfl

theorem allArraysAsTuples_eq_self :
    ∀ {items : List HostValue}, AllFreeOf isArray items → allArraysAsTuples items = items
  | [], _ => rfl
  | _ :: _, h => by
    rw [allArraysAsTuples, arraysAsTuples_eq_self h.1, allArraysAsTuples_eq_self h.2]

theorem entriesArraysAsTuples_eq_self : ∀ {entries : List (Key × HostValue)},
    EntriesFreeOf isArray entries → entriesArraysAsTuples entries = entries
  | [], _ => rfl
  | (_, _) :: _, h => by
    rw [entriesArraysAsTuples, arraysAsTuples_eq_self h.1, entriesArraysAsTuples_eq_self h.2]

end

end ElispBridge.HostValue
