import Mathlib.Data.List.Basic

/-! What a trace says about its events one by one, about one item, and about one label. -/

namespace Interleaving

universe u v w

section Each

variable {ε : Type w} {fits : List ε → ε → Prop}

/-- Every event of a trace fits the events before it. -/
def EachFits (fits : List ε → ε → Prop) (trace : List ε) : Prop :=
  ∀ before event after, trace = before ++ event :: after → fits before event

/-- There is nothing to fit in an empty trace. -/
@[simp] theorem eachFits_nil : EachFits fits [] := by
  intro before event after split
  -- No event stands in an empty trace.
  simp at split

/-- One more event leaves a fitting trace when it fits all the events before it. -/
theorem eachFits_snoc {trace : List ε} {event : ε} :
    EachFits fits (trace ++ [event]) ↔ EachFits fits trace ∧ fits trace event := by
  constructor
  · intro each
    -- What stands before an earlier event is the same in the longer trace.
    refine ⟨?_, each trace event [] rfl⟩
    intro before early after split
    exact each before early (after ++ [event]) (by simp [split])
  · intro both before other after split
    -- The event in question is the last one, or it stands among the earlier ones.
    rcases List.eq_nil_or_concat after with rfl | ⟨rest, last, rfl⟩
    · obtain ⟨rfl, same⟩ := List.append_inj' split rfl
      cases same
      exact both.2
    · rw [List.concat_eq_append, ← List.cons_append, ← List.append_assoc] at split
      exact both.1 before other rest (List.append_inj' split rfl).1

/-- A trace whose events all fit does so up to any point. -/
theorem EachFits.before {trace events : List ε} (each : EachFits fits (trace ++ events)) :
    EachFits fits trace := by
  intro before event after split
  exact each before event (after ++ events) (by simp [split])

/-- Events that fit wherever they stand leave a fitting trace. -/
theorem EachFits.append {trace events : List ε} (each : EachFits fits trace)
    (always : ∀ event ∈ events, ∀ before, fits before event) : EachFits fits (trace ++ events) := by
  -- The induction adds the events at the end of the trace one by one.
  induction events generalizing trace with
  | nil => simpa using each
  | cons event rest ih =>
    obtain ⟨here, later⟩ := List.forall_mem_cons.mp always
    have longer := ih (eachFits_snoc.mpr ⟨each, here trace⟩) later
    simpa using longer

end Each

variable {κ : Type u} {ℓ : Type v} [DecidableEq κ] [DecidableEq ℓ]

/-- The labels that one item has in a trace, in order. -/
def history (item : κ) (trace : List (κ × ℓ)) : List ℓ :=
  trace.filterMap fun event => if event.1 = item then some event.2 else none

/-- The items that have one label in a trace, in order. -/
def itemsAt (label : ℓ) (trace : List (κ × ℓ)) : List κ :=
  trace.filterMap fun event => if event.2 = label then some event.1 else none

omit [DecidableEq ℓ] in
@[simp] theorem history_nil (item : κ) : history item ([] : List (κ × ℓ)) = [] := rfl

omit [DecidableEq ℓ] in
/-- The history over a longer trace is the history over its two parts. -/
@[simp] theorem history_append (item : κ) (before after : List (κ × ℓ)) :
    history item (before ++ after) = history item before ++ history item after :=
  List.filterMap_append

omit [DecidableEq ℓ] in
/-- An event of the item is the first in its history. -/
@[simp] theorem history_cons_self (item : κ) (label : ℓ) (trace : List (κ × ℓ)) :
    history item ((item, label) :: trace) = label :: history item trace := by
  -- The filter keeps events of this item and drops the item from them.
  simp [history]

omit [DecidableEq ℓ] in
/-- An event of another item is not in its history. -/
theorem history_cons_of_ne {item other : κ} (apart : other ≠ item) (label : ℓ)
    (trace : List (κ × ℓ)) : history item ((other, label) :: trace) = history item trace := by
  simp [history, apart]

omit [DecidableEq ℓ] in
/-- A label is in the history of an item when the trace has that event. -/
theorem mem_history {item : κ} {label : ℓ} {trace : List (κ × ℓ)} :
    label ∈ history item trace ↔ (item, label) ∈ trace := by
  simp [history, List.mem_filterMap, and_comm]

/-- An event is as often in the trace as its label is in the history of its item. -/
theorem count_history (item : κ) (label : ℓ) (trace : List (κ × ℓ)) :
    (history item trace).count label = trace.count (item, label) := by
  induction trace with
  | nil => rfl
  | cons event trace ih =>
    -- Only an event of this item with this label counts on either side.
    obtain ⟨other, other'⟩ := event
    by_cases same : other = item
    · subst same
      by_cases same' : other' = label <;> simp [ih, same']
    · simp [history_cons_of_ne same, ih, same]

omit [DecidableEq κ] in
@[simp] theorem itemsAt_nil (label : ℓ) : itemsAt label ([] : List (κ × ℓ)) = [] := rfl

omit [DecidableEq κ] in
/-- The items over a longer trace are the items over its two parts. -/
@[simp] theorem itemsAt_append (label : ℓ) (before after : List (κ × ℓ)) :
    itemsAt label (before ++ after) = itemsAt label before ++ itemsAt label after :=
  List.filterMap_append

omit [DecidableEq κ] in
/-- One event adds its item when it has the label, and nothing when it has another one. -/
@[simp] theorem itemsAt_singleton (item : κ) (label other : ℓ) :
    itemsAt label [(item, other)] = if other = label then [item] else [] := by
  by_cases same : other = label <;> simp [itemsAt, same]

omit [DecidableEq κ] in
/-- An item is among those of a label when the trace has that event. -/
theorem mem_itemsAt {item : κ} {label : ℓ} {trace : List (κ × ℓ)} :
    item ∈ itemsAt label trace ↔ (item, label) ∈ trace := by
  simp [itemsAt, List.mem_filterMap]

end Interleaving
