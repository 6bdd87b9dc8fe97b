import ElispBridge.Proofs.Lisp.Semantics
import Mathlib.Data.List.Forall2
/-!
Code that can do one thing only, alone and in sequence, and code that leaves a variable alone.
-/

namespace ElispBridge.Lisp

variable {World : Type} {lib : Library World}

/-- The expression has the value `v` in `st`, leaves the state `last` and can do nothing else. -/
def Reaches (lib : Library World) (st : State World) (e : Expr) (v : Value) (last : State World) : Prop :=
  ∀ out last', Eval lib e st out last' ↔ out = .ok v ∧ last' = last

/-- The expression has the value `v` in `st`, and that is all it does. -/
def Gives (lib : Library World) (st : State World) (e : Expr) (v : Value) : Prop := Reaches lib st e v st

theorem evalAll_cons_of_reaches {e : Expr} {rest : List Expr} {v : Value} {st mid last : State World}
    {outs : Except Signal (List Value)} (head : Reaches lib st e v mid) :
    EvalAll lib (e :: rest) st outs last ↔ ∃ vs, EvalAll lib rest mid vs last ∧ outs = vs.map (v :: ·) := by
  rw [evalAll_cons]
  constructor
  · rintro ⟨out, mid', evaluated, h⟩
    obtain ⟨rfl, rfl⟩ := (head _ _).mp evaluated
    exact h
  · intro h
    exact ⟨.ok v, mid, (head _ _).mpr ⟨rfl, rfl⟩, h⟩

theorem evalAll_of_gives {es : List Expr} {vs : List Value} {st last : State World}
    {outs : Except Signal (List Value)} (h : List.Forall₂ (Gives lib st) es vs) :
    EvalAll lib es st outs last ↔ outs = .ok vs ∧ last = st := by
  induction h generalizing outs with
  | nil => exact evalAll_nil
  | cons head _ ih =>
    rw [evalAll_cons_of_reaches head]
    constructor
    · rintro ⟨vs, rest, rfl⟩
      rcases ih.mp rest with ⟨rfl, rfl⟩
      exact ⟨rfl, rfl⟩
    · rintro ⟨rfl, rfl⟩
      exact ⟨_, ih.mpr ⟨rfl, rfl⟩, rfl⟩

/-- Forms that only have values leave what the first one does as it is. -/
theorem evalAll_cons_of_gives {e : Expr} {rest : List Expr} {vs : List Value} {st last : State World}
    {outs : Except Signal (List Value)} (h : ∀ mid, List.Forall₂ (Gives lib mid) rest vs) :
    EvalAll lib (e :: rest) st outs last ↔ ∃ out, Eval lib e st out last ∧ outs = out.map (· :: vs) := by
  rw [evalAll_cons]
  constructor
  · rintro ⟨out, mid, evaluated, following⟩
    cases out with
    | error s =>
      rcases following with ⟨rfl, rfl⟩
      exact ⟨.error s, evaluated, rfl⟩
    | ok v =>
      obtain ⟨outs, given, rfl⟩ := following
      obtain ⟨rfl, rfl⟩ := (evalAll_of_gives (h mid)).mp given
      exact ⟨.ok v, evaluated, rfl⟩
  · rintro ⟨out, evaluated, rfl⟩
    refine ⟨out, last, evaluated, ?_⟩
    cases out with
    | error s => exact ⟨rfl, rfl⟩
    | ok v => exact ⟨.ok vs, (evalAll_of_gives (h last)).mpr ⟨rfl, rfl⟩, rfl⟩

theorem gives_constant {e : Expr} {v : Value} (form : Form.ofExpr e = .constant v) (st : State World) :
    Gives lib st e v := by
  intro out last
  rw [eval_iff, form, Runs]

theorem gives_lookup {e : Expr} {name : String} {v : Value} {st : State World}
    (form : Form.ofExpr e = .lookup name) (bound : st.bound name = some v) : Gives lib st e v := by
  intro out last
  rw [eval_iff, form, Runs, bound]

theorem gives_apply {e : Expr} {f : Primitive} {args : List Expr} {vs : List Value} {v : Value}
    {st : State World} (form : Form.ofExpr e = .apply f args) (h : List.Forall₂ (Gives lib st) args vs)
    (result : lib.apply f vs = .ok v) : Gives lib st e v := by
  intro out last
  rw [eval_iff, form, Runs]
  constructor
  · rintro ⟨outs, evaluated, same⟩
    obtain ⟨all, rfl⟩ := (evalAll_of_gives h).mp evaluated
    rw [same, all]
    exact ⟨result, rfl⟩
  · rintro ⟨rfl, rfl⟩
    exact ⟨_, (evalAll_of_gives h).mpr ⟨rfl, rfl⟩, result.symm⟩

theorem reaches_setq {e value : Expr} {name : String} {v : Value} {st : State World}
    (form : Form.ofExpr e = .setq name value) (h : Gives lib st value v) :
    Reaches lib st e v (st.set name (some v)) := by
  intro out last
  rw [eval_iff, form, Runs]
  constructor
  · rintro ⟨mid, evaluated, assigned⟩
    obtain ⟨rfl, rfl⟩ := (h _ _).mp evaluated
    exact ⟨rfl, assigned⟩
  · rintro ⟨rfl, rfl⟩
    exact ⟨st, (h _ _).mpr ⟨rfl, rfl⟩, rfl⟩

/-- The code does the same whatever the variable holds, and leaves it as it is. -/
def Untouched (lib : Library World) (e : Expr) (name : String) : Prop :=
  ∀ v st out last, Eval lib e (st.set name v) out last →
    ∃ last', Eval lib e st out last' ∧ last = last'.set name v

namespace Untouched

variable {e : Expr} {name : String} {st last : State World} {out : Outcome}

theorem bound_eq (h : Untouched lib e name) (evaluated : Eval lib e st out last) :
    last.bound name = st.bound name := by
  rw [← st.set_bound name] at evaluated
  rcases h _ _ _ _ evaluated with ⟨last', -, rfl⟩
  exact State.bound_set_self _ _ _

theorem eval_set (h : Untouched lib e name) (v : Option Value) (evaluated : Eval lib e st out last) :
    Eval lib e (st.set name v) out (last.set name v) := by
  have back : (st.set name v).set name (st.bound name) = st := by
    rw [State.set_set, State.set_bound]
  rw [← back] at evaluated
  obtain ⟨last', evaluated', rfl⟩ := h _ _ _ _ evaluated
  have kept : last'.bound name = v := by
    rw [h.bound_eq evaluated', State.bound_set_self]
  have same : (last'.set name (st.bound name)).set name v = last' := by
    rw [State.set_set, ← kept, State.set_bound]
  rw [same]
  exact evaluated'

theorem eval_set_iff (h : Untouched lib e name) {v : Option Value} :
    Eval lib e (st.set name v) out last ↔ ∃ last', Eval lib e st out last' ∧ last = last'.set name v := by
  constructor
  · exact h v st out last
  · rintro ⟨last', evaluated, rfl⟩
    exact h.eval_set v evaluated

end Untouched

end ElispBridge.Lisp
