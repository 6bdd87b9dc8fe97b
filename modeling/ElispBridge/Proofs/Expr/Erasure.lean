import ElispBridge.Convert.HostValue
import ElispBridge.Expr.Render
/-!
Quotations in data. Erasing them at every depth leaves the data text of an expression as it is, and the text
of a list headed by a cell, which is data on its own. So quoting an association list adds one mark, whatever
its keys and values.
-/

namespace ElispBridge

theorem Context.inside_data (items : List Expr) : Context.data.inside items = .data := by
  cases items with
  | nil => rfl
  | cons e rest => cases e <;> rfl

namespace Expr

mutual

/-- The expression with every quotation replaced by what it quotes. -/
def erase : Expr → Expr
  | .literal l => .literal l
  | .symbol s => .symbol s
  | .cons car cdr => .cons car.erase cdr.erase
  | .list items => .list (eraseAll items)
  | .quoted inner => inner.erase
  | .raw source => .raw source

def eraseAll : List Expr → List Expr
  | [] => []
  | e :: rest => e.erase :: eraseAll rest

end

mutual

theorem chars_data_erase : ∀ e : Expr, e.erase.chars .data = e.chars .data
  | .literal _ | .symbol _ | .raw _ => rfl
  | .cons car cdr => by
    rw [erase, chars, chars, chars_data_erase car, chars_data_erase cdr]
  -- Erasing may give the list another head, but in data the head has no say.
  | .list items => by
    rw [erase, chars, chars, Context.inside_data, Context.inside_data, spaced_data_eraseAll items]
  | .quoted inner => by
    rw [erase, chars, chars_data_erase inner]

theorem spaced_data_eraseAll : ∀ items : List Expr, spaced .data (eraseAll items) = spaced .data items
  | [] => rfl
  | e :: rest => by
    rw [eraseAll, spaced, spaced, chars_data_erase e, spacedTail_data_eraseAll rest]

theorem spacedTail_data_eraseAll :
    ∀ items : List Expr, spacedTail .data (eraseAll items) = spacedTail .data items
  | [] => rfl
  | e :: rest => by
    rw [eraseAll, spacedTail, spacedTail, chars_data_erase e, spacedTail_data_eraseAll rest]

end

theorem render_quote (e : Expr) : e.quote.render = "'" ++ String.ofList (e.chars .data) := by
  rw [render, chars_quote_code, String.ofList_cons]
  rfl

theorem render_quote_of_data {e : Expr} (data : e.chars .code = e.chars .data) :
    e.quote.render = "'" ++ e.render := by
  rw [render_quote, render, data]

/-- A list headed by a cell is data in code too. -/
theorem chars_list_cell (car cdr : Expr) (items : List Expr) :
    (list (.cons car cdr :: items)).chars .code = (list (.cons car cdr :: items)).chars .data := by
  rw [chars, chars]
  rfl

theorem chars_alist (pairs : List (Expr × Expr)) : (alist pairs).chars .code = (alist pairs).chars .data := by
  cases pairs with
  | nil => rfl
  | cons pair rest => exact chars_list_cell pair.1 pair.2 _

/-- Data is written without its quotations, so what quotes the same once they are erased has the same text.
A list headed by a cell, and every association list, gets one mark by being quoted and nothing else. -/
theorem quotations_unseen_in_data :
    (∀ e : Expr, e.quote.render = "'" ++ String.ofList (e.chars .data) ∧
      e.chars .data = e.erase.chars .data) ∧
    (∀ a b : Expr, a.erase = b.erase → a.quote.render = b.quote.render) ∧
    (∀ (car cdr : Expr) (items : List Expr),
      (list (.cons car cdr :: items)).render = (list (.cons car cdr :: items)).erase.render ∧
      (list (.cons car cdr :: items)).quote.render = "'" ++ (list (.cons car cdr :: items)).render) ∧
    (∀ (options : ConvertOptions) (pairs : List (HostValue × HostValue)),
      ((HostValue.dictionary .alist options pairs).quoteIf true).render =
        "'" ++ ((HostValue.dictionary .alist options pairs).quoteIf false).render) := by
  refine ⟨fun e => ⟨render_quote e, (chars_data_erase e).symm⟩, ?_, ?_, ?_⟩
  · intro a b same
    rw [render_quote, render_quote, ← chars_data_erase a, ← chars_data_erase b, same]
  · intro car cdr items
    have erased : (list (.cons car cdr :: items)).erase =
      .list (.cons car.erase cdr.erase :: eraseAll items) := by rw [erase, eraseAll, erase]
    have same := chars_data_erase (list (.cons car cdr :: items))
    rw [erased] at same
    refine ⟨?_, render_quote_of_data (chars_list_cell car cdr items)⟩
    rw [render, render, erased, chars_list_cell, chars_list_cell, same]
  · intro options pairs
    exact render_quote_of_data (chars_alist _)

/-- Only after erasing is the first list headed by a cell. -/
theorem quotations_unseen_in_data_head :
    let a : Expr := .list [.quoted (.cons (.named "k") (.quoted (.list [.quoted (.named "v")])))]
    let b : Expr := .list [.cons (.quoted (.named "k")) (.list [.named "v"])]
    a.erase = b.erase ∧ a.chars .code ≠ b.chars .code ∧ a.quote.render = b.quote.render := by
  intro a b
  have same : a.erase = b.erase := rfl
  exact ⟨same, by decide, quotations_unseen_in_data.2.1 a b same⟩

end Expr

end ElispBridge
