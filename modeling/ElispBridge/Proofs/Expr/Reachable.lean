import ElispBridge.Proofs.Build.Steps
import ElispBridge.Proofs.Evaluation.Decision
import ElispBridge.Proofs.Expr.FlatQuotes
/-!
The trees that can be built. `Reachable` has a rule for each public operation that makes a tree: of nodes,
of host values, of calls and other forms, of code to be evaluated, and by taking a tree apart. In all of
them quotations are flat, and every tree with flat quotations is one of them.
-/

namespace ElispBridge

open ElispBridge.Expr

namespace Call

def Step.values : Step → List HostValue
  | .arg v | .keyword _ v => [v]
  | .args vs => vs

structure FlatParts (c : Call) : Prop where
  function : c.function.FlatQuotes
  args : ∀ e ∈ c.args, e.FlatQuotes
  keywords : ∀ pair ∈ c.keywords, pair.2.FlatQuotes

theorem FlatParts.add {c : Call} (h : c.FlatParts) {step : Step}
    (flat : ∀ v ∈ step.values, ∀ e ∈ v.trees, e.FlatQuotes) : (c.add step).FlatParts := by
  have values := HostValue.flatQuotes_map_toExpr {} flat
  cases step with
  | arg v | args vs => exact ⟨h.function, List.forall_mem_append.mpr ⟨h.args, values⟩, h.keywords⟩
  | keyword name v =>
    refine ⟨h.function, h.args, List.forall_mem_append.mpr ⟨h.keywords, ?_⟩⟩
    intro pair member
    rw [List.mem_singleton.mp member]
    exact values _ List.mem_cons_self

theorem flatParts_ofSteps {function : Expr} {steps : List Step} (flat : function.FlatQuotes)
    (values : ∀ step ∈ steps, ∀ v ∈ step.values, ∀ e ∈ v.trees, e.FlatQuotes) :
    (ofSteps function steps).FlatParts := by
  have start : FlatParts { function } := ⟨flat, nofun, nofun⟩
  rw [ofSteps]
  -- The steps are taken one by one, so the call that they go on from is any call with flat parts.
  generalize ({ function } : Call) = c at start
  induction steps generalizing c with
  | nil => exact start
  | cons step steps ih =>
    rcases List.forall_mem_cons.mp values with ⟨first, others⟩
    exact ih others _ (start.add first)

theorem FlatParts.toExpr {c : Call} (h : c.FlatParts) : c.toExpr.FlatQuotes := by
  apply FlatQuotes.list
  intro e member
  rcases List.mem_append.mp member with positional | keyword
  · exact List.forall_mem_cons.mpr ⟨h.function, h.args⟩ e positional
  · rcases List.mem_flatMap.mp keyword with ⟨pair, listed, entry⟩
    rcases List.mem_cons.mp entry with rfl | entry
    · trivial
    · rw [List.mem_singleton.mp entry]
      exact h.keywords pair listed

end Call

theorem Expr.flatQuotes_letForm {bindings : List (String × HostValue)} {body : List HostValue}
    (values : ∀ binding ∈ bindings, ∀ e ∈ binding.2.trees, e.FlatQuotes)
    (forms : ∀ v ∈ body, ∀ e ∈ v.trees, e.FlatQuotes) : (letForm bindings body).FlatQuotes := by
  refine FlatQuotes.call "let" (List.forall_mem_cons.mpr ⟨FlatQuotes.list ?_, ?_⟩)
  · intro binder member
    rcases List.mem_map.mp member with ⟨binding, listed, rfl⟩
    exact ⟨trivial, HostValue.flatQuotes_toExpr {} binding.2 (values binding listed), trivial⟩
  · exact HostValue.flatQuotes_map_toExpr {} forms

namespace Source

mutual

/-- The expressions in code. -/
def exprs : Source → List Expr
  | .raw _ => []
  | .expr e => [e]
  | .sequence items => allExprs items

def allExprs : List Source → List Expr
  | [] => []
  | item :: rest => item.exprs ++ allExprs rest

end

mutual

theorem flatQuotes_toExpr :
    ∀ source : Source, (∀ e ∈ source.exprs, e.FlatQuotes) → source.toExpr.FlatQuotes
  | .raw _, _ => trivial
  | .expr e, h => h e List.mem_cons_self
  | .sequence items, h => FlatQuotes.call "progn" (allFlatQuotes_iff.mp (flatQuotes_toExprs items h))

theorem flatQuotes_toExprs :
    ∀ items : List Source, (∀ e ∈ allExprs items, e.FlatQuotes) → AllFlatQuotes (toExprs items)
  | [], _ => trivial
  | item :: rest, h => by
    rcases List.forall_mem_append.mp h with ⟨first, others⟩
    exact ⟨flatQuotes_toExpr item first, flatQuotes_toExprs rest others⟩

end

end Source

namespace Snippet

theorem flatQuotes_encodeJson {e : Expr} (h : e.FlatQuotes) : (encodeJson e).FlatQuotes := by
  simp only [encodeJson, requireJson, Expr.call, named, Expr.quote, FlatQuotes, AllFlatQuotes, isQuoted, h,
    and_self]

theorem flatQuotes_guard {e : Expr} (h : e.FlatQuotes) : (guard e).FlatQuotes := by
  simp only [guard, errorReport, Expr.call, named, string, FlatQuotes, AllFlatQuotes, h, and_self]

theorem flatQuotes_catchErrorsJson {e : Expr} (h : e.FlatQuotes) (encoded : Bool) :
    (catchErrorsJson e encoded).FlatQuotes := by
  have value : (if encoded then e else Expr.call "json-encode" [e]).FlatQuotes := by
    cases encoded with
    | false => exact ⟨trivial, h, trivial⟩
    | true => exact h
  have guarded := flatQuotes_guard value
  simp only [catchErrorsJson, requireJson, Expr.call, named, string, Expr.nil, Expr.quote, FlatQuotes,
    AllFlatQuotes, isQuoted, and_true, true_and] at guarded ⊢
  exact guarded

end Snippet

namespace Request

theorem Core.flatQuotes {options : EvalOptions} {e core : Expr} (h : Core options e core)
    (flat : e.FlatQuotes) : core.FlatQuotes := by
  cases h with
  | caughtIgnored =>
    have ignored : (Expr.call "progn" [e, .nil]).FlatQuotes := ⟨trivial, flat, trivial, trivial⟩
    exact Snippet.flatQuotes_catchErrorsJson ignored _
  | caught => exact Snippet.flatQuotes_catchErrorsJson flat _
  | asIs => exact flat
  | encoded => exact Snippet.flatQuotes_encodeJson flat

theorem Decision.flatQuotes {temporary : TemporaryFiles} {options : EvalOptions} {mode : Mode}
    {files after : Files} {e form : Expr} {output : Output} {held : Option Path}
    (h : Decision temporary options mode files e form output held after)
    (flat : e.FlatQuotes) : form.FlatQuotes := by
  cases h with
  | unread => exact flat
  | callerFile core | ownFile core =>
    exact ⟨trivial, trivial, ⟨trivial, core.flatQuotes flat, trivial⟩, trivial⟩
  | stdout core => exact ⟨trivial, core.flatQuotes flat, trivial⟩
  | printed core => exact core.flatQuotes flat

end Request

/-- The trees that the operations make. A value or code that holds trees may hold any of these. A map with
keys that `Key` leaves out is the tree that `dictionary` makes of its entries. -/
inductive Reachable : Expr → Prop
  | literal (l : Literal) : Reachable (.literal l)
  | symbol (s : Symbol) : Reachable (.symbol s)
  | raw (source : String) : Reachable (.raw source)
  | cons {car cdr : Expr} : Reachable car → Reachable cdr → Reachable (.cons car cdr)
  | list {items : List Expr} : (∀ e ∈ items, Reachable e) → Reachable (.list items)
  | quote {e : Expr} : Reachable e → Reachable e.quote
  | converted (options : ConvertOptions) {v : HostValue} :
    (∀ e ∈ v.trees, Reachable e) → Reachable (v.toExpr options)
  | described (options : ConvertOptions) {s : Shape} {e : Expr} :
    s.convert options = .ok e → Reachable e
  | key {v : HostValue} : (∀ e ∈ v.trees, Reachable e) → Reachable v.toKey
  | quoteForm {v : HostValue} : (∀ e ∈ v.trees, Reachable e) → Reachable v.quoteForm
  | quoteValue {v : HostValue} : (∀ e ∈ v.trees, Reachable e) → Reachable v.quote
  | consOf {car cdr : HostValue} : (∀ e ∈ car.trees, Reachable e) → (∀ e ∈ cdr.trees, Reachable e) →
    Reachable (consOf car cdr)
  | listOf (options : ConvertOptions) {vs : List HostValue} :
    (∀ v ∈ vs, ∀ e ∈ v.trees, Reachable e) → Reachable (listOf options vs)
  | symbols (names : List String) (quoting : Bool) : Reachable (symbols names quoting)
  | dictionary (format : DictFormat) (options : ConvertOptions) (quoting : Bool)
    {pairs : List (HostValue × HostValue)} :
    (∀ pair ∈ pairs, ∀ e ∈ pair.1.trees ++ pair.2.trees, Reachable e) →
    Reachable ((HostValue.dictionary format options pairs).quoteIf quoting)
  | call {function : Expr} {steps : List Call.Step} : Reachable function →
    (∀ step ∈ steps, ∀ v ∈ step.values, ∀ e ∈ v.trees, Reachable e) →
    Reachable (Call.ofSteps function steps).toExpr
  | funcall {function : Expr} {args : List HostValue} : Reachable function →
    (∀ v ∈ args, ∀ e ∈ v.trees, Reachable e) → Reachable (funcall function args)
  | funcallKeywords {function : Expr} {args : List HostValue} {keywords : List (String × HostValue)} :
    Reachable function → (∀ v ∈ args, ∀ e ∈ v.trees, Reachable e) →
    (∀ pair ∈ keywords, ∀ e ∈ pair.2.trees, Reachable e) →
    Reachable (funcallKeywords function args keywords)
  | letForm {bindings : List (String × HostValue)} {body : List HostValue} :
    (∀ binding ∈ bindings, ∀ e ∈ binding.2.trees, Reachable e) →
    (∀ v ∈ body, ∀ e ∈ v.trees, Reachable e) → Reachable (letForm bindings body)
  | source {code : Source} : (∀ e ∈ code.exprs, Reachable e) → Reachable code.toExpr
  | encodeJson {e : Expr} : Reachable e → Reachable (Snippet.encodeJson e)
  | catchErrorsJson {e : Expr} (encoded : Bool) : Reachable e →
    Reachable (Snippet.catchErrorsJson e encoded)
  | prepared {temporary : TemporaryFiles} {code : Source} {options : EvalOptions} {config : Config}
    {files after : Files} {request : Request} : (∀ e ∈ code.exprs, Reachable e) →
    Request.prepare temporary code options config files = (.ok request, after) → Reachable request.expr
  | car {car cdr : Expr} : Reachable (.cons car cdr) → Reachable car
  | cdr {car cdr : Expr} : Reachable (.cons car cdr) → Reachable cdr
  | item {items : List Expr} {e : Expr} : Reachable (.list items) → e ∈ items → Reachable e
  | inner {e : Expr} : Reachable (.quoted e) → Reachable e

theorem Reachable.flatQuotes {e : Expr} (h : Reachable e) : e.FlatQuotes := by
  induction h with
  | literal | symbol | raw => trivial
  | cons _ _ car cdr => exact ⟨car, cdr⟩
  | list _ ih => exact FlatQuotes.list ih
  | quote _ ih => exact ih.quote
  | converted options _ ih => exact HostValue.flatQuotes_toExpr options _ ih
  | described options converted => exact Shape.flatQuotes_convert options _ converted
  | key _ ih => exact HostValue.flatQuotes_toKey ih
  | quoteForm _ ih => exact HostValue.flatQuotes_quoteForm ih
  | quoteValue _ ih => exact (HostValue.flatQuotes_quoteForm ih).quote
  | consOf _ _ car cdr =>
    exact ⟨HostValue.flatQuotes_toExpr {} _ car, HostValue.flatQuotes_toExpr {} _ cdr⟩
  | listOf options _ ih => exact FlatQuotes.list (HostValue.flatQuotes_map_toExpr options ih)
  | symbols names quoting =>
    apply FlatQuotes.quoteIf
    apply FlatQuotes.list
    intro e member
    rcases List.mem_map.mp member with ⟨name, -, rfl⟩
    trivial
  | dictionary format options quoting _ ih =>
    exact (HostValue.flatQuotes_dictionary format options ih).quoteIf quoting
  | call _ _ function values => exact (Call.flatParts_ofSteps function values).toExpr
  | funcall _ _ function values =>
    rw [funcall_eq_ofSteps]
    apply (Call.flatParts_ofSteps function ?_).toExpr
    intro step member
    rw [List.mem_singleton.mp member]
    exact values
  | funcallKeywords _ _ _ function values keywords =>
    rw [funcallKeywords_eq_ofSteps]
    apply (Call.flatParts_ofSteps function ?_).toExpr
    intro step member
    rcases List.mem_cons.mp member with rfl | member
    · exact values
    · rcases List.mem_map.mp member with ⟨pair, listed, rfl⟩
      exact List.forall_mem_singleton.mpr (keywords pair listed)
  | letForm _ _ values forms => exact flatQuotes_letForm values forms
  | source _ ih => exact Source.flatQuotes_toExpr _ ih
  | encodeJson _ ih => exact Snippet.flatQuotes_encodeJson ih
  | catchErrorsJson encoded _ ih => exact Snippet.flatQuotes_catchErrorsJson ih encoded
  | prepared _ prepared ih =>
    exact (Request.decision_of_prepare prepared).1.flatQuotes (Source.flatQuotes_toExpr _ ih)
  | car _ ih => exact ih.1
  | cdr _ ih => exact ih.2
  | item _ member ih => exact ih.item _ member
  | inner _ ih => exact ih.2

mutual

theorem Expr.FlatQuotes.reachable : ∀ {e : Expr}, e.FlatQuotes → Reachable e
  | .literal l, _ => .literal l
  | .symbol s, _ => .symbol s
  | .raw source, _ => .raw source
  | .cons _ _, h => .cons h.1.reachable h.2.reachable
  | .list _, h => .list (Expr.AllFlatQuotes.reachable h)
  | .quoted inner, h => by
    have built := h.2.reachable.quote
    rwa [Expr.quote_of_isQuoted_eq_false h.1] at built

theorem Expr.AllFlatQuotes.reachable :
    ∀ {items : List Expr}, AllFlatQuotes items → ∀ e ∈ items, Reachable e
  | [], _ => nofun
  | _ :: _, h => List.forall_mem_cons.mpr ⟨h.1.reachable, Expr.AllFlatQuotes.reachable h.2⟩

end

/-- The trees that can be built are those in which no quotation directly holds another. -/
theorem reachable_iff_flatQuotes {e : Expr} : Reachable e ↔ e.FlatQuotes :=
  ⟨Reachable.flatQuotes, Expr.FlatQuotes.reachable⟩

/-- In a tree that can be built quotations are flat. Quoting it once is quoting it for good, and what the
quotation holds is the tree, or what the tree holds if it is a quotation. -/
theorem flatQuotes_of_reachable {e : Expr} (h : Reachable e) :
    e.FlatQuotes ∧ e.quote.quote = e.quote ∧ ∃ inner, e.quote = .quoted inner ∧
      inner.isQuoted = false ∧ (e.isQuoted = false ∧ inner = e ∨ e = .quoted inner) := by
  have flat := h.flatQuotes
  refine ⟨flat, quote_quote e, ?_⟩
  cases quoted : e.isQuoted with
  | false => exact ⟨e, quote_of_isQuoted_eq_false quoted, quoted, .inl ⟨rfl, rfl⟩⟩
  | true =>
    cases e with
    | quoted inner => exact ⟨inner, rfl, flat.1, .inr rfl⟩
    | literal | symbol | cons | list | raw => cases quoted

/-- A sequence of a call and of a map that holds the call again, where the call has a quoted argument. -/
theorem flatQuotes_of_reachable_sequence :
    let form := (Call.ofSteps (.named "f")
      [.arg (.sequence [.int 1]), .keyword "a_b" (.tree (named "x").quote)]).toExpr
    let v := HostValue.sequence [.tree form, .map [(.string "k", .sequence [.tree form])]]
    let e := (v.toExpr .plist).quote
    Reachable e ∧ e.FlatQuotes ∧ e.quote.quote = e.quote ∧ ∃ inner, e = .quoted inner := by
  intro form v e
  have callable : Reachable form := by
    refine .call (.symbol ⟨"f"⟩) ?_
    intro step member value listed tree held
    rcases List.mem_cons.mp member with rfl | member
    · rw [List.mem_singleton.mp listed] at held
      cases held
    · rw [List.mem_singleton.mp member] at listed
      rw [List.mem_singleton.mp listed] at held
      rw [List.mem_singleton.mp held]
      exact .quote (.symbol ⟨"x"⟩)
  have built : Reachable e := by
    refine .quote (.converted .plist ?_)
    intro tree held
    rcases List.mem_cons.mp held with rfl | held
    · exact callable
    · rw [List.mem_singleton.mp held]
      exact callable
  obtain ⟨flat, once, -⟩ := flatQuotes_of_reachable built
  exact ⟨built, flat, once, _, rfl⟩

end ElispBridge
