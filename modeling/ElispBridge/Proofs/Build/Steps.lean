import ElispBridge.Build.Call
/-!
Calls built step by step. The positional values and the keyword pairs of the steps come into the call each in
the order in which they were added, all positional values first, however the two were mixed.
-/

namespace ElispBridge

namespace Call

/-- A keyword's name: hyphens for underscores, with a colon in front unless the name brings one. -/
def keywordName (name : String) : String :=
  let hyphened := name.toList.map fun c => if c = '_' then '-' else c
  String.ofList (if name.toList.head? = some ':' then hyphened else ':' :: hyphened)

theorem keyword_kebabName (name : String) : Symbol.keyword (Symbol.kebabName name) = ⟨keywordName name⟩ := by
  unfold Symbol.keyword Symbol.isKeyword keywordName Symbol.kebabName
  rw [String.toList_ofList]
  cases name.toList with
  | nil => rfl
  | cons c rest =>
    by_cases colon : c = ':'
    · subst c
      rfl
    · have changed : (if c = '_' then '-' else c) ≠ ':' := by
        split
        · decide
        · exact colon
      simp [colon, changed]

namespace Step

def positional : Step → List HostValue
  | .arg v => [v]
  | .args vs => vs
  | .keyword _ _ => []

def keyword? : Step → Option (String × HostValue)
  | .keyword name v => some (name, v)
  | .arg _ | .args _ => none

end Step

/-- The positional values of the steps. -/
def positional (steps : List Step) : List HostValue := steps.flatMap Step.positional

/-- The names and values of the keyword steps. -/
def named (steps : List Step) : List (String × HostValue) := steps.filterMap Step.keyword?

/-- The keyword argument that a name and a value become. -/
def keyed (pair : String × HostValue) : Symbol × Expr := (⟨keywordName pair.1⟩, pair.2.toExpr {})

theorem positional_cons (step : Step) (steps : List Step) :
    positional (step :: steps) = step.positional ++ positional steps := List.flatMap_cons

theorem named_cons (step : Step) (steps : List Step) :
    named (step :: steps) = step.keyword?.toList ++ named steps := by
  rw [named, List.filterMap_cons]
  cases step.keyword? <;> rfl

theorem named_map_keyword (pairs : List (String × HostValue)) :
    named (pairs.map fun (name, v) => .keyword name v) = pairs := by
  rw [named, List.filterMap_map]
  exact List.filterMap_some

theorem positional_map_keyword (pairs : List (String × HostValue)) :
    positional (pairs.map fun (name, v) => .keyword name v) = [] := by
  rw [positional, List.flatMap_map]
  exact List.flatMap_eq_nil_iff.mpr fun _ _ => rfl

theorem add_function (c : Call) (step : Step) : (c.add step).function = c.function := by
  cases step <;> rfl

theorem add_args (c : Call) (step : Step) :
    (c.add step).args = c.args ++ step.positional.map (·.toExpr {}) := by
  cases step with
  | arg v => rfl
  | args vs => rfl
  | keyword name v => exact (List.append_nil _).symm

theorem add_keywords (c : Call) (step : Step) :
    (c.add step).keywords = c.keywords ++ step.keyword?.toList.map keyed := by
  cases step with
  | arg v => exact (List.append_nil _).symm
  | args vs => exact (List.append_nil _).symm
  | keyword name v =>
    rw [add, Call.keyword, keyword_kebabName]
    rfl

/-- What the steps so far have made of a call, further steps add to. -/
theorem foldl_add (c : Call) (steps : List Step) : steps.foldl add c =
    { function := c.function
      args := c.args ++ (positional steps).map (·.toExpr {})
      keywords := c.keywords ++ (named steps).map keyed } := by
  induction steps generalizing c with
  | nil =>
    simp only [positional, named, List.foldl_nil, List.flatMap_nil, List.filterMap_nil, List.map_nil,
      List.append_nil]
  | cons step rest ih =>
    rw [List.foldl_cons, ih, add_function, add_args, add_keywords, positional_cons, named_cons,
      List.map_append, List.map_append, List.append_assoc, List.append_assoc]

theorem ofSteps_eq (function : Expr) (steps : List Step) : ofSteps function steps =
    { function, args := (positional steps).map (·.toExpr {}), keywords := (named steps).map keyed } :=
  foldl_add { function } steps

theorem toExpr_ofSteps (function : Expr) (steps : List Step) : (ofSteps function steps).toExpr =
    .list (function :: (positional steps).map (·.toExpr {}) ++
      (named steps).flatMap fun (name, v) => [.named (keywordName name), v.toExpr {}]) := by
  rw [ofSteps_eq, toExpr, items, List.flatMap_map]
  rfl

theorem length_items_ofSteps (function : Expr) (steps : List Step) :
    (ofSteps function steps).items.length = 1 + (positional steps).length + 2 * (named steps).length := by
  rw [length_items, ofSteps_eq, List.length_map, List.length_map]

theorem ofSteps_congr (function : Expr) {steps other : List Step} (values : positional other = positional steps)
    (names : named other = named steps) : ofSteps function other = ofSteps function steps := by
  rw [ofSteps_eq, ofSteps_eq, values, names]

end Call

namespace Expr

theorem funcall_eq_ofSteps (function : Expr) (args : List HostValue) :
    funcall function args = (Call.ofSteps function [.args args]).toExpr := rfl

theorem funcallKeywords_eq_ofSteps (function : Expr) (args : List HostValue)
    (keywords : List (String × HostValue)) :
    funcallKeywords function args keywords =
      (Call.ofSteps function (.args args :: keywords.map fun (name, v) => .keyword name v)).toExpr := by
  rw [funcallKeywords, Call.ofSteps, List.foldl_cons, List.foldl_map]
  rfl

end Expr

namespace Call

theorem toExpr_ofSteps_eq_funcallKeywords (function : Expr) (steps : List Step) :
    (ofSteps function steps).toExpr = Expr.funcallKeywords function (positional steps) (named steps) := by
  rw [Expr.funcallKeywords_eq_ofSteps]
  apply congrArg toExpr
  apply ofSteps_congr
  · rw [positional_cons, positional_map_keyword]
    exact (List.append_nil _).symm
  · rw [named_cons, named_map_keyword]
    rfl

/-- A call is its function, the positional values and the keyword pairs, each in the order of the steps and each
once for every time that it was added. So it does not matter how the steps were mixed: the call is the one that
is made of all values and pairs at once. -/
theorem ofSteps_partitioned (function : Expr) (steps : List Step) :
    (ofSteps function steps).toExpr =
        .list (function :: (positional steps).map (·.toExpr {}) ++
          (named steps).flatMap fun (name, v) => [.named (keywordName name), v.toExpr {}]) ∧
      (ofSteps function steps).items.length =
        1 + (positional steps).length + 2 * steps.countP (·.keyword?.isSome) ∧
      (ofSteps function steps).toExpr = Expr.funcallKeywords function (positional steps) (named steps) ∧
      ∀ other, positional other = positional steps → named other = named steps →
        (ofSteps function other).toExpr = (ofSteps function steps).toExpr := by
  refine ⟨toExpr_ofSteps function steps, ?_, toExpr_ofSteps_eq_funcallKeywords function steps, ?_⟩
  · rw [length_items_ofSteps, named, List.length_filterMap_eq_countP]
  · intro other values names
    rw [ofSteps_congr function values names]

/-- A name used twice, one with a colon of its own, and values added singly or in batches. -/
theorem ofSteps_partitioned_mixed :
    let steps : List Step := [.keyword "a_b" .unit, .args [.int 1, .int 2], .keyword ":c_" (.int 3),
      .arg (.int 4), .keyword "a_b" (.int 5), .args []]
    let other : List Step := [.arg (.int 1), .args [.int 2, .int 4], .keyword "a_b" .unit,
      .keyword ":c_" (.int 3), .keyword "a_b" (.int 5)]
    positional other = positional steps ∧ named other = named steps ∧
      (ofSteps (.named "f") other).toExpr = (ofSteps (.named "f") steps).toExpr ∧
      (ofSteps (.named "f") steps).toExpr = .list [.named "f", .int 1, .int 2, .int 4, .named ":a-b", .nil,
        .named ":c-", .int 3, .named ":a-b", .int 5] := by
  intro steps other
  rcases ofSteps_partitioned (.named "f") steps with ⟨written, -, -, mixed⟩
  exact ⟨rfl, rfl, mixed other rfl rfl, written⟩

end Call

end ElispBridge
