import ElispBridge.Convert.Shape
import Mathlib.Data.List.Forall2
import Mathlib.Data.List.Induction
/-!
A map as it is described step by step. A draft of it holds the key that waits for its value and the pairs so
far; each step adds to the draft or is refused. After any steps the draft holds the last key, if that was the
last step, and each key that had its value just behind it. So a map is converted exactly if a key stands just
before every value, and otherwise the first value without one ends it.
-/

namespace ElispBridge

namespace MapStep

def argument : MapStep → Shape
  | .key k | .value k => k

def key? : MapStep → Option Shape
  | .key k => some k
  | .value _ => none

def value? : MapStep → Option Shape
  | .key _ => none
  | .value v => some v

/-- The key that waits for a value after the steps: the last step, if that is a key. -/
def waiting (steps : List MapStep) : Option Shape := steps.getLast?.bind key?

/-- A key with the value just behind it. -/
def keyedValue? : MapStep × MapStep → Option (Shape × Shape)
  | (.key k, .value v) => some (k, v)
  | _ => none

def neighbours (steps : List MapStep) : List (Shape × Shape) := (steps.zip steps.tail).filterMap keyedValue?

/-- A key stands just before every value. -/
def Paired (steps : List MapStep) : Prop :=
  ∀ before v after, steps = before ++ .value v :: after → ∃ earlier k, before = earlier ++ [.key k]

theorem waiting_eq_some_iff {steps : List MapStep} {k : Shape} :
    waiting steps = some k ↔ ∃ earlier, steps = earlier ++ [.key k] := by
  rw [waiting, Option.bind_eq_some_iff]
  constructor
  · rintro ⟨step, last, key⟩
    cases step with
    | key k' =>
      cases key
      exact List.getLast?_eq_some_iff.mp last
    | value v => cases key
  · rintro ⟨earlier, rfl⟩
    exact ⟨.key k, List.getLast?_concat, rfl⟩

theorem waiting_snoc (steps : List MapStep) (step : MapStep) : waiting (steps ++ [step]) = step.key? := by
  rw [waiting, List.getLast?_concat, Option.bind_some]

theorem neighbours_cons_cons (first second : MapStep) (rest : List MapStep) :
    neighbours (first :: second :: rest) =
      (keyedValue? (first, second)).toList ++ neighbours (second :: rest) := by
  rw [neighbours, List.tail_cons, List.zip_cons_cons, List.filterMap_cons]
  cases keyedValue? (first, second) <;> rfl

theorem neighbours_snoc_key (steps : List MapStep) (k : Shape) :
    neighbours (steps ++ [.key k]) = neighbours steps := by
  induction steps with
  | nil => rfl
  | cons first rest ih =>
    cases rest with
    | nil => cases first <;> rfl
    | cons second rest =>
      simp only [List.cons_append, neighbours_cons_cons] at ih ⊢
      rw [ih]

theorem neighbours_snoc_value {steps : List MapStep} {k : Shape} (v : Shape)
    (h : waiting steps = some k) : neighbours (steps ++ [.value v]) = neighbours steps ++ [(k, v)] := by
  induction steps with
  | nil => cases h
  | cons first rest ih =>
    cases rest with
    | nil =>
      cases first with
      | key k' =>
        cases h
        rfl
      | value _ => cases h
    | cons second rest =>
      have last : waiting (second :: rest) = some k := by
        rw [waiting, List.getLast?_cons_cons] at h
        exact h
      have others := ih last
      simp only [List.cons_append, neighbours_cons_cons] at others ⊢
      rw [others, List.append_assoc]

theorem paired_nil : Paired [] := by
  intro before v after same
  cases before <;> cases same

theorem paired_snoc_iff {steps : List MapStep} {step : MapStep} :
    Paired (steps ++ [step]) ↔ Paired steps ∧ ∀ v, step = .value v → ∃ k, waiting steps = some k := by
  constructor
  · intro paired
    constructor
    · intro before v after same
      exact paired before v (after ++ [step]) (by rw [same, List.append_assoc, List.cons_append])
    · intro v last
      rcases paired steps v [] (by rw [last]) with ⟨earlier, k, same⟩
      exact ⟨k, waiting_eq_some_iff.mpr ⟨earlier, same⟩⟩
  · intro h before v after same
    rcases List.eq_nil_or_concat after with rfl | ⟨behind, other, rfl⟩
    · rcases List.append_inj' same rfl with ⟨rfl, last⟩
      rcases h.2 v (List.cons.inj last).1 with ⟨k, key⟩
      rcases waiting_eq_some_iff.mp key with ⟨earlier, same⟩
      exact ⟨earlier, k, same⟩
    · rw [List.concat_eq_append, ← List.cons_append, ← List.append_assoc] at same
      exact h.1 before v behind (List.append_inj' same rfl).1

/-- In steps that are not paired there is a first value without a key. -/
theorem exists_unkeyed {steps : List MapStep} (h : ¬ Paired steps) : ∃ before v after,
    steps = before ++ .value v :: after ∧ Paired before ∧ waiting before = none := by
  induction steps using List.reverseRecOn with
  | nil => exact absurd paired_nil h
  | append_singleton steps step ih =>
    by_cases paired : Paired steps
    · cases step with
      | key k =>
        have keys : ∀ v, MapStep.key k = .value v → ∃ k, waiting steps = some k := nofun
        exact absurd (paired_snoc_iff.mpr ⟨paired, keys⟩) h
      | value v =>
        refine ⟨steps, v, [], rfl, paired, ?_⟩
        cases key : waiting steps with
        | none => rfl
        | some k => exact absurd (paired_snoc_iff.mpr ⟨paired, fun _ _ => ⟨k, key⟩⟩) h
    · rcases ih paired with ⟨before, v, after, rfl, first⟩
      exact ⟨before, v, after ++ [step], by rw [List.append_assoc, List.cons_append], first⟩

theorem neighbours_values {steps : List MapStep} (h : Paired steps) :
    (neighbours steps).map Prod.snd = steps.filterMap value? := by
  induction steps using List.reverseRecOn with
  | nil => rfl
  | append_singleton steps step ih =>
    rcases paired_snoc_iff.mp h with ⟨paired, keyed⟩
    rw [List.filterMap_append, ← ih paired]
    cases step with
    | key k =>
      rw [neighbours_snoc_key]
      exact (List.append_nil _).symm
    | value v =>
      rcases keyed v rfl with ⟨k, key⟩
      rw [neighbours_snoc_value v key, List.map_append]
      rfl

end MapStep

/-- What a map keeps between two steps: the key that waits and the pairs so far. -/
structure MapDraft where
  pending : Option Expr := none
  pairs : List (Expr × Expr) := []

namespace MapDraft

variable (options : ConvertOptions)

def add (d : MapDraft) : MapStep → Except ConversionError MapDraft
  | .key k =>
    match k.convert options with
    | .error e => .error e
    | .ok k => .ok { d with pending := some k.asKey }
  | .value v =>
    match d.pending with
    | none => .error Shape.valueBeforeKey
    | some key =>
      match v.convert options with
      | .error e => .error e
      | .ok v => .ok { pending := none, pairs := d.pairs ++ [(key, v)] }

def run (d : MapDraft) : List MapStep → Except ConversionError MapDraft
  | [] => .ok d
  | step :: rest =>
    match d.add options step with
    | .error e => .error e
    | .ok d => d.run rest

theorem run_append (d : MapDraft) (first second : List MapStep) :
    d.run options (first ++ second) = (d.run options first).bind (·.run options second) := by
  induction first generalizing d with
  | nil => rfl
  | cons step rest ih =>
    rw [List.cons_append, run, run]
    cases d.add options step with
    | error e => rfl
    | ok d => exact ih d

/-- The conversion of the steps is the run of a draft, whose pairs come before those still to be made. -/
theorem run_pairs (d : MapDraft) (steps : List MapStep) : (d.run options steps).map pairs =
    (Shape.convertSteps options d.pending steps).map (d.pairs ++ ·) := by
  induction steps generalizing d with
  | nil => exact congrArg Except.ok (List.append_nil _).symm
  | cons step rest ih =>
    cases step with
    | key k =>
      rw [run, add, Shape.convertSteps]
      cases k.convert options with
      | error e => rfl
      | ok k => exact ih { d with pending := some k.asKey }
    | value v =>
      rcases d with ⟨pending, pairs⟩
      cases pending with
      | none =>
        rw [Shape.convertSteps]
        rfl
      | some key =>
        rw [run, add, Shape.convertSteps]
        cases v.convert options with
        | error e => rfl
        | ok v =>
          refine (ih { pending := none, pairs := pairs ++ [(key, v)] }).trans ?_
          dsimp only
          cases Shape.convertSteps options none rest with
          | error e => rfl
          | ok others => exact congrArg Except.ok (List.append_assoc _ _ _)

theorem convertSteps_eq_run (steps : List MapStep) :
    Shape.convertSteps options none steps = (run options {} steps).map pairs := by
  rw [run_pairs]
  cases Shape.convertSteps options none steps <;> rfl

theorem convert_eq_run (steps : List MapStep) : (Shape.map steps).convert options =
    ((run options {} steps).map pairs).map (.dictionary options.dictFormat) := by
  rw [Shape.convert, convertSteps_eq_run]
  cases run options {} steps <;> rfl

/-- The expression is what the key converts to. -/
def KeyOf (k : Shape) (e : Expr) : Prop :=
  ∃ converted, k.convert options = .ok converted ∧ e = converted.asKey

def EntryOf (entry : Shape × Shape) (pair : Expr × Expr) : Prop :=
  KeyOf options entry.1 pair.1 ∧ entry.2.convert options = .ok pair.2

/-- What a draft holds after the steps. -/
structure Holds (steps : List MapStep) (d : MapDraft) : Prop where
  pending : Option.Rel (KeyOf options) (MapStep.waiting steps) d.pending
  pairs : List.Forall₂ (EntryOf options) (MapStep.neighbours steps) d.pairs

section Holds

variable {options} {steps : List MapStep} {d : MapDraft}

theorem Holds.key (h : Holds options steps d) {k : Shape} {e : Expr} (converted : k.convert options = .ok e) :
    ∃ next, d.add options (.key k) = .ok next ∧ Holds options (steps ++ [.key k]) next := by
  refine ⟨{ d with pending := some e.asKey }, by rw [add, converted], ?_, ?_⟩
  · rw [MapStep.waiting_snoc]
    exact .some ⟨e, converted, rfl⟩
  · rw [MapStep.neighbours_snoc_key]
    exact h.pairs

theorem Holds.value (h : Holds options steps d) {k v : Shape} {e : Expr}
    (keyed : MapStep.waiting steps = some k) (converted : v.convert options = .ok e) :
    ∃ next, d.add options (.value v) = .ok next ∧ Holds options (steps ++ [.value v]) next := by
  have waiting := h.pending
  rw [keyed] at waiting
  cases pending : d.pending with
  | none =>
    rw [pending] at waiting
    cases waiting
  | some waitingKey =>
    rw [pending] at waiting
    rcases waiting with ⟨key⟩
    have added : d.add options (.value v) =
        .ok { pending := none, pairs := d.pairs ++ [(waitingKey, e)] } := by
      rw [add, pending]
      simp only [converted]
    refine ⟨_, added, ?_, ?_⟩
    · rw [MapStep.waiting_snoc]
      exact .none
    · rw [MapStep.neighbours_snoc_value v keyed]
      exact List.rel_append h.pairs (.cons ⟨key, converted⟩ .nil)

theorem Holds.unkeyed (h : Holds options steps d) (keyless : MapStep.waiting steps = none) (v : Shape) :
    d.add options (.value v) = .error Shape.valueBeforeKey := by
  have waiting := h.pending
  rw [keyless] at waiting
  cases pending : d.pending with
  | none => rw [add, pending]
  | some key =>
    rw [pending] at waiting
    cases waiting

theorem exists_holds (convertible : ∀ step ∈ steps, ∃ e, step.argument.convert options = .ok e)
    (paired : MapStep.Paired steps) : ∃ d, run options {} steps = .ok d ∧ Holds options steps d := by
  induction steps using List.reverseRecOn with
  | nil => exact ⟨{}, rfl, .none, .nil⟩
  | append_singleton steps step ih =>
    rcases List.forall_mem_append.mp convertible with ⟨earlier, last⟩
    rcases MapStep.paired_snoc_iff.mp paired with ⟨paired, keyed⟩
    rcases ih earlier paired with ⟨d, reached, holds⟩
    rcases last step List.mem_cons_self with ⟨e, converted⟩
    -- a value finds the key that the steps before it end with, and the draft holds what that converts to
    have step : ∃ next, d.add options step = .ok next ∧ Holds options (steps ++ [step]) next := by
      cases step with
      | key k => exact holds.key converted
      | value v =>
        rcases keyed v rfl with ⟨k, key⟩
        exact holds.value key converted
    rcases step with ⟨next, added, holds⟩
    refine ⟨next, ?_, holds⟩
    rw [run_append, reached, Except.bind, run, added]
    rfl

theorem run_unkeyed (convertible : ∀ step ∈ steps, ∃ e, step.argument.convert options = .ok e)
    (paired : MapStep.Paired steps) (keyless : MapStep.waiting steps = none) (v : Shape)
    (behind : List MapStep) :
    run options {} (steps ++ .value v :: behind) = .error Shape.valueBeforeKey := by
  rcases exists_holds convertible paired with ⟨d, reached, holds⟩
  rw [run_append, reached, Except.bind, run, holds.unkeyed keyless v]

/-- A key without its value just behind it is overwritten by the next key or left behind at the end. -/
theorem run_dropped_key {k : Shape} {e : Expr} (converted : k.convert options = .ok e) (before : List MapStep)
    {after : List MapStep} (dropped : ∀ v rest, after ≠ .value v :: rest) :
    (run options d (before ++ .key k :: after)).map pairs = (run options d (before ++ after)).map pairs := by
  rw [run_append, run_append]
  cases run options d before with
  | error e => rfl
  | ok d =>
    rw [Except.bind, Except.bind, run, add, converted]
    cases after with
    | nil => rfl
    | cons step rest =>
      cases step with
      | key k => rfl
      | value v => exact absurd rfl (dropped v rest)

end Holds

end MapDraft

namespace Shape

section Convertible

variable {options : ConvertOptions} {steps : List MapStep}
  (convertible : ∀ step ∈ steps, ∃ e, step.argument.convert options = .ok e)
include convertible

theorem convert_paired (paired : MapStep.Paired steps) :
    ∃ pairs, List.Forall₂ (MapDraft.EntryOf options) (MapStep.neighbours steps) pairs ∧
      (map steps).convert options = .ok (.dictionary options.dictFormat pairs) := by
  rcases MapDraft.exists_holds convertible paired with ⟨d, reached, holds⟩
  refine ⟨d.pairs, holds.pairs, ?_⟩
  rw [MapDraft.convert_eq_run, reached]
  rfl

theorem convert_unpaired (unpaired : ¬ MapStep.Paired steps) :
    ∃ before v after, steps = before ++ .value v :: after ∧ MapStep.Paired before ∧
      MapStep.waiting before = none ∧
      ∀ behind, (map (before ++ .value v :: behind)).convert options = .error valueBeforeKey := by
  rcases MapStep.exists_unkeyed unpaired with ⟨before, v, after, rfl, paired, keyless⟩
  refine ⟨before, v, after, rfl, paired, keyless, ?_⟩
  intro behind
  have earlier := (List.forall_mem_append.mp convertible).1
  rw [MapDraft.convert_eq_run, MapDraft.run_unkeyed earlier paired keyless]
  rfl

theorem convert_ok_iff_paired : (∃ e, (map steps).convert options = .ok e) ↔ MapStep.Paired steps := by
  constructor
  · rintro ⟨e, success⟩
    by_contra unpaired
    rcases convert_unpaired convertible unpaired with ⟨before, v, after, rfl, -, -, failure⟩
    rw [failure after] at success
    cases success
  · intro paired
    rcases convert_paired convertible paired with ⟨pairs, -, success⟩
    exact ⟨_, success⟩

end Convertible

/-- A map whose steps can all be converted is converted exactly if a key stands just before every value.
Otherwise its first value without a key ends it, whatever comes behind. The dictionary is made of the values in
their order, each with the key just before it; a key without a value just behind it might as well not be
there. -/
theorem convert_steps (options : ConvertOptions) {steps : List MapStep}
    (convertible : ∀ step ∈ steps, ∃ e, step.argument.convert options = .ok e) :
    ((∃ e, (map steps).convert options = .ok e) ↔ MapStep.Paired steps) ∧
    (¬ MapStep.Paired steps → ∃ before v after, steps = before ++ .value v :: after ∧
      MapStep.Paired before ∧ MapStep.waiting before = none ∧
      ∀ behind, (map (before ++ .value v :: behind)).convert options =
        .error (.custom "map value serialized before its key")) ∧
    (MapStep.Paired steps → (MapStep.neighbours steps).map Prod.snd = steps.filterMap MapStep.value? ∧
      ∃ pairs, List.Forall₂ (MapDraft.EntryOf options) (MapStep.neighbours steps) pairs ∧
        (map steps).convert options = .ok (.dictionary options.dictFormat pairs)) ∧
    (∀ before k after, steps = before ++ .key k :: after → (∀ v rest, after ≠ .value v :: rest) →
      (map steps).convert options = (map (before ++ after)).convert options) := by
  refine ⟨convert_ok_iff_paired convertible, convert_unpaired convertible, ?_, ?_⟩
  · intro paired
    exact ⟨MapStep.neighbours_values paired, convert_paired convertible paired⟩
  · rintro before k after rfl dropped
    have key : ∃ e, k.convert options = .ok e :=
      convertible (.key k) (List.mem_append_right _ List.mem_cons_self)
    rcases key with ⟨e, key⟩
    rw [MapDraft.convert_eq_run, MapDraft.convert_eq_run, MapDraft.run_dropped_key key before dropped]

/-- Of five keys, two of one name, the ones with a value show; without its key the second value is refused. -/
theorem convert_steps_repeated :
    let steps : List MapStep := [.key (.text "a"), .key (.text "b"), .value (.int 1), .key .unit,
      .key (.text "b"), .value (.int 2), .key (.text "c")]
    let unkeyed : List MapStep := [.key (.text "a"), .value (.int 1), .value .unit, .key .unit]
    (∀ step ∈ steps, ∃ e, step.argument.convert .plist = .ok e) ∧
      (map steps).convert .plist = .ok (.list [.named ":b", .int 1, .named ":b", .int 2]) ∧
      (∀ step ∈ unkeyed, ∃ e, step.argument.convert .plist = .ok e) ∧
      ∃ before v, MapStep.waiting before = none ∧
        ∀ behind, (map (before ++ .value v :: behind)).convert .plist =
          .error (.custom "map value serialized before its key") := by
  intro steps unkeyed
  have convertible : ∀ step ∈ steps, ∃ e, step.argument.convert .plist = .ok e := by
    simp [steps, MapStep.argument, convert]
  have refusable : ∀ step ∈ unkeyed, ∃ e, step.argument.convert .plist = .ok e := by
    simp [unkeyed, MapStep.argument, convert]
  rcases convert_steps .plist convertible with ⟨-, -, -, dropped⟩
  have paired := dropped [.key (.text "a"), .key (.text "b"), .value (.int 1), .key .unit,
    .key (.text "b"), .value (.int 2)] (.text "c") [] rfl nofun
  have unpaired : ¬ MapStep.Paired unkeyed := by
    intro paired
    rcases paired [.key (.text "a"), .value (.int 1)] .unit [.key .unit] rfl with ⟨earlier, k, same⟩
    have split : [MapStep.key (.text "a")] ++ [.value (.int 1)] = earlier ++ [.key k] := same
    cases (List.append_inj' split rfl).2
  rcases (convert_steps .plist refusable).2.1 unpaired with ⟨before, v, after, -, -, keyless, failure⟩
  exact ⟨convertible, paired, refusable, before, v, keyless, failure⟩

end Shape

end ElispBridge
