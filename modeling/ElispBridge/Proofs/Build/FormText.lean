import ElispBridge.Proofs.Build.Steps
import ElispBridge.Proofs.Convert.Printing
/-!
Text of calls and `let` forms. It is put together from the texts that the parts have on their own: no argument,
value or body form makes a form data, since no form built here starts with one of them.
-/

namespace ElispBridge

/-- The texts, each after a space. -/
def following (texts : List String) : String := String.join (texts.map (" " ++ ·))

@[simp] theorem following_nil : following [] = "" := String.join_nil

@[simp] theorem following_cons (text : String) (texts : List String) :
    following (text :: texts) = " " ++ text ++ following texts := by
  rw [following, List.map_cons, String.join_cons]
  rfl

theorem following_append (texts more : List String) :
    following (texts ++ more) = following texts ++ following more := by
  rw [following, List.map_append, String.join_append]
  rfl

namespace Expr

theorem spacedTail_eq_following (items : List Expr) :
    spacedTail .code items = (following (items.map render)).toList := by
  induction items with
  | nil => rfl
  | cons e rest ih =>
    rw [spacedTail, ih, List.map_cons, following_cons, String.toList_append, String.toList_append,
      toList_render]
    rfl

theorem render_list {e : Expr} (h : ∀ car cdr, e ≠ .cons car cdr) (rest : List Expr) :
    (list (e :: rest)).render = "(" ++ e.render ++ following (rest.map render) ++ ")" := by
  apply String.toList_inj.mp
  rw [toList_render, chars_list_of_ne_cons h, spacedTail_eq_following]
  simp only [String.toList_append, toList_render]
  rfl

theorem render_list_of_inside {items : List Expr} (h : Context.code.inside items = .code) :
    (list items).render = "(" ++ " ".intercalate (items.map render) ++ ")" := by
  have texts : (items.map render).map String.toList = items.map (chars .code) := by
    rw [List.map_map]
    exact List.map_congr_left fun e _ => toList_render e
  apply String.toList_inj.mp
  rw [toList_render, chars_list, h, String.toList_append, String.toList_append, String.toList_intercalate,
    texts]
  rfl

theorem render_symbol (s : Symbol) : (symbol s).render = if s.name = "" then "##" else s.name := by
  rw [render, chars, Symbol.chars]
  split
  · rfl
  · exact String.ofList_toList

end Expr

theorem Symbol.kebabName_eq_empty_iff {name : String} : Symbol.kebabName name = "" ↔ name = "" := by
  rw [← String.toList_inj, Symbol.kebabName, String.toList_ofList, ← String.toList_inj]
  exact List.map_eq_nil_iff

namespace Call

theorem keywordName_ne_empty (name : String) : keywordName name ≠ "" := by
  intro empty
  have chars := congrArg String.toList empty
  rw [keywordName, String.toList_ofList] at chars
  split at chars
  · rename_i colon
    rw [String.toList_empty, List.map_eq_nil_iff] at chars
    rw [chars] at colon
    cases colon
  · cases chars

/-- A keyword argument in the text of a call. -/
def keywordText (key : String) (e : Expr) : String := key ++ " " ++ e.render

theorem following_keywords (keywords : List (Symbol × Expr)) :
    following ((keywords.flatMap fun (key, e) => [.symbol key, e]).map Expr.render) =
      following (keywords.map fun (key, e) => keywordText (Expr.symbol key).render e) := by
  induction keywords with
  | nil => rfl
  | cons pair rest ih =>
    simp only [List.flatMap_cons, List.cons_append, List.nil_append, List.map_cons, following_cons, ih,
      keywordText, String.append_assoc]

theorem render_eq {c : Call} (h : ∀ car cdr, c.function ≠ .cons car cdr) :
    c.render = "(" ++ c.function.render ++ following (c.args.map Expr.render) ++
      following (c.keywords.map fun (key, e) => keywordText (Expr.symbol key).render e) ++ ")" := by
  rw [render, toExpr, items, List.cons_append, Expr.render_list h, List.map_append, following_append,
    following_keywords]
  simp only [String.append_assoc]

theorem render_ofSteps {function : Expr} (h : ∀ car cdr, function ≠ .cons car cdr) (steps : List Step) :
    (ofSteps function steps).render = "(" ++ function.render ++
      following ((positional steps).map fun v => (v.toExpr {}).render) ++
      following ((named steps).map fun (name, v) => keywordText (keywordName name) (v.toExpr {})) ++ ")" := by
  have keyword (name : String) : (Expr.symbol ⟨keywordName name⟩).render = keywordName name := by
    rw [Expr.render_symbol, if_neg (keywordName_ne_empty name)]
  rw [ofSteps_eq, render_eq h]
  simp only [List.map_map, Function.comp_def, keyed, keyword]

end Call

namespace Expr

/-- A binding in the text of a `let`. -/
def bindingText (name : String) (e : Expr) : String :=
  "(" ++ (if name = "" then "##" else Symbol.kebabName name) ++ " " ++ e.render ++ ")"

theorem render_binding (name : String) (e : Expr) :
    (list [.symbol (Symbol.kebab name), e]).render = bindingText name e := by
  have symbol : (Expr.symbol (Symbol.kebab name)).render =
      if name = "" then "##" else Symbol.kebabName name := by
    rw [render_symbol]
    simp only [Symbol.kebab, Symbol.kebabName_eq_empty_iff]
  have plain : ∀ car cdr, Expr.symbol (Symbol.kebab name) ≠ .cons car cdr := nofun
  rw [render_list plain, symbol, bindingText]
  simp only [List.map_cons, List.map_nil, following_cons, following_nil, String.append_empty,
    String.append_assoc]

/-- The bindings are lists, so their list is not headed by a cell either. -/
theorem render_bindings (bindings : List (String × HostValue)) :
    (list (bindings.map fun (name, v) => list [.symbol (Symbol.kebab name), v.toExpr {}])).render =
      "(" ++ " ".intercalate (bindings.map fun (name, v) => bindingText name (v.toExpr {})) ++ ")" := by
  have code : Context.code.inside
      (bindings.map fun (name, v) => list [.symbol (Symbol.kebab name), v.toExpr {}]) = .code := by
    cases bindings <;> rfl
  rw [render_list_of_inside code, List.map_map]
  simp only [Function.comp_def, render_binding]

theorem render_letForm (bindings : List (String × HostValue)) (body : List HostValue) :
    (letForm bindings body).render =
      "(let (" ++ " ".intercalate (bindings.map fun (name, v) => bindingText name (v.toExpr {})) ++ ")" ++
        following (body.map fun v => (v.toExpr {}).render) ++ ")" := by
  have plain : ∀ car cdr, named "let" ≠ .cons car cdr := nofun
  have opening : "(let (" = "(" ++ ((named "let").render ++ (" " ++ "(")) := by decide
  rw [letForm, call, render_list plain, List.map_cons, following_cons, render_bindings,
    List.map_map, opening]
  simp only [String.append_assoc, Function.comp_def]

end Expr

namespace Call

/-- A form that is built is written with what it is built of, each part as it is written on its own. That
holds of every call whose function is no cell, whatever its arguments, and of every `let` form. -/
theorem render_built :
    (∀ c : Call, (∀ car cdr, c.function ≠ .cons car cdr) →
      c.render = "(" ++ c.function.render ++ following (c.args.map Expr.render) ++
        following (c.keywords.map fun (key, e) => keywordText (Expr.symbol key).render e) ++ ")") ∧
    (∀ (function : Expr) (steps : List Step), (∀ car cdr, function ≠ .cons car cdr) →
      (ofSteps function steps).render = "(" ++ function.render ++
        following ((positional steps).map fun v => (v.toExpr {}).render) ++
        following ((named steps).map fun (name, v) => keywordText (keywordName name) (v.toExpr {})) ++ ")") ∧
    (∀ (bindings : List (String × HostValue)) (body : List HostValue),
      (Expr.letForm bindings body).render =
        "(let (" ++ " ".intercalate (bindings.map fun (name, v) => Expr.bindingText name (v.toExpr {})) ++
          ")" ++ following (body.map fun v => (v.toExpr {}).render) ++ ")") :=
  ⟨fun _ => render_eq, fun _ steps h => render_ofSteps h steps, Expr.render_letForm⟩

/-- A quoted function, a cell and an association list as arguments, a keyword that has its colon. -/
theorem render_built_cells :
    let cell : Expr := .cons (.int 1) (.quoted (.named "x"))
    let steps : List Step := [.keyword ":k_" (.tree cell), .arg (.tree cell), .arg (.tree (.list [cell]))]
    (∀ car cdr, Expr.quoted (.named "f") ≠ .cons car cdr) ∧
      (ofSteps (.quoted (.named "f")) steps).render = "('f (cons 1 'x) ((1 . x)) :k- (cons 1 'x))" ∧
      (Expr.letForm [("", .tree cell), ("a_b", .unit)] [.tree cell]).render =
        "(let ((## (cons 1 'x)) (a-b nil)) (cons 1 'x))" := by
  intro cell steps
  rcases render_built with ⟨-, stepped, bound⟩
  refine ⟨nofun, ?_, ?_⟩
  · rw [stepped (.quoted (.named "f")) steps nofun]
    decide
  · rw [bound]
    decide

end Call

end ElispBridge
