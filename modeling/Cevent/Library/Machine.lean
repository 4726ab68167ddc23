import Mathlib.Data.List.Induction

/-! Machines that take one atomic action at a time, and what holds along every run of them. -/

namespace Interleaving

universe u v w

/-- A machine takes an action when it is enabled, and reports what the action makes visible. -/
structure Machine (σ : Type u) (α : Type v) (ε : Type w) where
  /-- The state after an action and the events it emits, or nothing when it is not enabled. -/
  step : σ → α → Option (σ × List ε)

namespace Machine

variable {σ : Type u} {α : Type v} {ε : Type w} (m : Machine σ α ε)

/-- The state and the trace that a list of actions leads to, when each is enabled in its turn. -/
def exec : σ → List α → Option (σ × List ε)
  | s, [] => some (s, [])
  | s, a :: rest =>
    match m.step s a with
    | none => none
    | some (t, events) => (exec t rest).map fun done => (done.1, events ++ done.2)

/-- Every action of a run is taken in a state that meets a condition on that action. -/
def Meets (ok : σ → α → Prop) : σ → List α → Prop
  | _, [] => True
  | s, a :: rest => ok s a ∧ ∀ t events, m.step s a = some (t, events) → Meets ok t rest

/-- The empty run stays where it is and shows nothing. -/
@[simp] theorem exec_nil (s : σ) : m.exec s [] = some (s, []) := rfl

/-- The empty run meets every condition. -/
@[simp] theorem meets_nil (ok : σ → α → Prop) (s : σ) : m.Meets ok s [] := trivial

/-- A run meets a condition when its first action does and the rest of the run does. -/
theorem meets_cons {ok : σ → α → Prop} {s t : σ} {a : α} {rest : List α} {events : List ε}
    (taken : m.step s a = some (t, events)) :
    m.Meets ok s (a :: rest) ↔ ok s a ∧ m.Meets ok t rest := by
  simp [Meets, taken]

/-- Whether a run meets a condition is found out by taking its actions in turn. -/
instance decidableMeets (ok : σ → α → Prop) [∀ s a, Decidable (ok s a)] :
    (s : σ) → (acts : List α) → Decidable (m.Meets ok s acts)
  | _, [] => isTrue trivial
  | s, a :: rest =>
    match taken : m.step s a with
    -- Nothing follows an action that is not enabled.
    | none => decidable_of_iff (ok s a) (by simp [Meets, taken])
    | some (t, _) =>
      have := decidableMeets ok t rest
      decidable_of_iff (ok s a ∧ m.Meets ok t rest) (m.meets_cons taken).symm

/-- A run that starts with an action is that action followed by the rest of the run. -/
theorem exec_cons {s t : σ} {a : α} {rest : List α} {events : List ε}
    (taken : m.step s a = some (t, events)) :
    m.exec s (a :: rest) = (m.exec t rest).map fun done => (done.1, events ++ done.2) := by
  simp [exec, taken]

/-- A run of one more action is a shorter run whose last state takes that action. -/
theorem exec_snoc {s u : σ} {acts : List α} {a : α} {trace : List ε} :
    m.exec s (acts ++ [a]) = some (u, trace) ↔
      ∃ t before events, m.exec s acts = some (t, before) ∧
        m.step t a = some (u, events) ∧ trace = before ++ events := by
  -- The induction moves the starting state along, so it stays quantified over.
  induction acts generalizing s trace with
  | nil =>
    cases taken : m.step s a with
    | none => simp [exec, taken]
    | some next => simp [exec, taken, Prod.ext_iff, eq_comm]
  | cons first rest ih =>
    cases taken : m.step s first with
    | none => simp [exec, taken]
    | some next =>
      obtain ⟨t, events⟩ := next
      simp only [List.cons_append, m.exec_cons taken, Option.map_eq_some_iff, Prod.exists,
        Prod.mk.injEq]
      constructor
      · rintro ⟨_, _, ran, rfl, rfl⟩
        obtain ⟨mid, before, last, ranRest, stepped, rfl⟩ := ih.mp ran
        exact ⟨mid, events ++ before, last, ⟨mid, before, ranRest, rfl, rfl⟩, stepped, by simp⟩
      · rintro ⟨_, _, last, ⟨mid, before, ranRest, rfl, rfl⟩, stepped, rfl⟩
        have ran := ih.mpr ⟨mid, before, last, ranRest, stepped, rfl⟩
        exact ⟨u, before ++ last, ran, rfl, by simp⟩

/-- Two runs, the second of which starts where the first one ends, are a run. -/
theorem exec_append {s t u : σ} {acts more : List α} {before after : List ε}
    (first : m.exec s acts = some (t, before)) (second : m.exec t more = some (u, after)) :
    m.exec s (acts ++ more) = some (u, before ++ after) := by
  -- The second run is cut off from behind, as a run grows there.
  induction more using List.reverseRecOn generalizing u after with
  | nil =>
    cases second
    simpa using first
  | append_singleton more a ih =>
    obtain ⟨v, trace, events, ran, taken, rfl⟩ := m.exec_snoc.mp second
    rw [← List.append_assoc]
    exact m.exec_snoc.mpr ⟨v, before ++ trace, events, ih ran, taken, by simp⟩

/-- A longer run meets a condition when the shorter one does and what follows it does too. -/
theorem meets_append {ok : σ → α → Prop} {s t : σ} {acts more : List α} {trace : List ε}
    (ran : m.exec s acts = some (t, trace)) :
    m.Meets ok s (acts ++ more) ↔ m.Meets ok s acts ∧ m.Meets ok t more := by
  induction acts generalizing s trace with
  | nil =>
    simp only [exec_nil, Option.some.injEq, Prod.mk.injEq] at ran
    simp [ran.1]
  | cons first rest ih =>
    cases taken : m.step s first with
    | none => simp [exec, taken] at ran
    | some next =>
      obtain ⟨mid, events⟩ := next
      simp only [m.exec_cons taken, Option.map_eq_some_iff, Prod.mk.injEq, Prod.exists] at ran
      obtain ⟨_, later, ranRest, rfl, rfl⟩ := ran
      simp only [List.cons_append, Meets, taken, Option.some.injEq, Prod.mk.injEq, and_imp,
        forall_eq', forall_apply_eq_imp_iff, ih ranRest, and_assoc]

/-- It does so when only one action follows, and that one does. -/
theorem meets_snoc {ok : σ → α → Prop} {s t : σ} {acts : List α} {a : α} {trace : List ε}
    (ran : m.exec s acts = some (t, trace)) :
    m.Meets ok s (acts ++ [a]) ↔ m.Meets ok s acts ∧ ok t a := by
  rw [m.meets_append ran]
  simp [Meets]

/-- A run that meets a condition meets every weaker one. -/
theorem meets_imp {ok weaker : σ → α → Prop} (imp : ∀ s a, ok s a → weaker s a) {s : σ}
    {acts : List α} (meets : m.Meets ok s acts) : m.Meets weaker s acts := by
  -- The condition is weakened action by action along the run.
  induction acts generalizing s with
  | nil => trivial
  | cons a rest ih =>
    exact ⟨imp s a meets.1, fun t events taken => ih (meets.2 t events taken)⟩

/-- A run meets what follows in each of its states from an invariant. -/
theorem meets_of_invariant {ok : σ → α → Prop} (inv : σ → Prop) {s : σ} (start : inv s)
    (keep : ∀ t a u events, inv t → m.step t a = some (u, events) → inv u)
    (holds : ∀ t a, inv t → ok t a) (acts : List α) : m.Meets ok s acts := by
  -- The invariant goes with each action to the state that the rest of the run starts from.
  induction acts generalizing s with
  | nil => trivial
  | cons a rest ih =>
    exact ⟨holds s a start, fun t events taken => ih (keep s a t events start taken)⟩

/-- What holds of every action in every state is met by every run. -/
theorem meets_of_forall {ok : σ → α → Prop} (holds : ∀ s a, ok s a) (s : σ) (acts : List α) :
    m.Meets ok s acts :=
  m.meets_of_invariant (fun _ => True) trivial (fun _ _ _ _ _ _ => trivial)
    (fun t a _ => holds t a) acts

/-- What holds of each action of a run, whatever the state, is met by it. -/
theorem meets_of_mem {ok : σ → α → Prop} {acts : List α} (holds : ∀ a ∈ acts, ∀ s, ok s a) (s : σ) :
    m.Meets ok s acts := by
  induction acts generalizing s with
  | nil => trivial
  | cons a rest ih =>
    obtain ⟨here, later⟩ := List.forall_mem_cons.mp holds
    exact ⟨here s, fun t _ _ => ih later t⟩

/-- A run that meets two conditions meets both at once. -/
theorem meets_and {ok other : σ → α → Prop} {s : σ} {acts : List α} (meets : m.Meets ok s acts)
    (meets' : m.Meets other s acts) : m.Meets (fun s a => ok s a ∧ other s a) s acts := by
  induction acts generalizing s with
  | nil => trivial
  | cons a rest ih =>
    -- The rest of the run meets both from every state that the first action may lead to.
    refine ⟨⟨meets.1, meets'.1⟩, fun t events taken => ?_⟩
    exact ih (meets.2 t events taken) (meets'.2 t events taken)

/-- What holds at the start and is kept by every action holds after every run. -/
theorem exec_invariant (inv : σ → List ε → Prop) {s₀ s : σ} {acts : List α} {trace : List ε}
    (start : inv s₀ [])
    (keep : ∀ t before a u events, inv t before → m.step t a = some (u, events) →
      inv u (before ++ events))
    (ran : m.exec s₀ acts = some (s, trace)) : inv s trace := by
  -- Actions are added at the end, so each one starts from a state already covered.
  induction acts using List.reverseRecOn generalizing s trace with
  | nil =>
    obtain ⟨rfl, rfl⟩ : s₀ = s ∧ [] = trace := by simpa using ran
    exact start
  | append_singleton acts a ih =>
    obtain ⟨t, before, events, ranBefore, taken, rfl⟩ := m.exec_snoc.mp ran
    exact keep t before a s events (ih ranBefore) taken

/-- What every action keeps under a condition holds after every run that meets it. -/
theorem exec_invariant_of_meets {ok : σ → α → Prop} (inv : σ → List ε → Prop) {s₀ s : σ}
    {acts : List α} {trace : List ε} (start : inv s₀ [])
    (keep : ∀ t before a u events, inv t before → ok t a → m.step t a = some (u, events) →
      inv u (before ++ events))
    (ran : m.exec s₀ acts = some (s, trace)) (meets : m.Meets ok s₀ acts) : inv s trace := by
  -- The last action meets the condition in the state that the run before it leads to.
  induction acts using List.reverseRecOn generalizing s trace with
  | nil =>
    obtain ⟨rfl, rfl⟩ : s₀ = s ∧ [] = trace := by simpa using ran
    exact start
  | append_singleton acts a ih =>
    obtain ⟨t, before, events, ranBefore, taken, rfl⟩ := m.exec_snoc.mp ran
    obtain ⟨meetsBefore, holds⟩ := (m.meets_snoc ranBefore).mp meets
    exact keep t before a s events (ih ranBefore meetsBefore) holds taken

/--
A property that an action keeps exactly when it meets a condition holds after exactly the runs that meet it.

Once broken, the property stays broken. All of it may be so within a second condition only, which the
run meets.
-/
theorem exec_iff_meets_within {within ok : σ → α → Prop} (inv property : σ → List ε → Prop)
    {s₀ s : σ} {acts : List α} {trace : List ε} (start : inv s₀ []) (holds : property s₀ [])
    (keep : ∀ t before a u events, inv t before → within t a → m.step t a = some (u, events) →
      inv u (before ++ events))
    (exact_ : ∀ t before a u events, inv t before → within t a → m.step t a = some (u, events) →
      (property u (before ++ events) ↔ property t before ∧ ok t a))
    (ran : m.exec s₀ acts = some (s, trace)) (meets : m.Meets within s₀ acts) :
    property s trace ↔ m.Meets ok s₀ acts := by
  -- Actions are added at the end, and each one decides about itself.
  induction acts using List.reverseRecOn generalizing s trace with
  | nil =>
    obtain ⟨rfl, rfl⟩ : s₀ = s ∧ [] = trace := by simpa using ran
    simp [holds]
  | append_singleton acts a ih =>
    obtain ⟨t, before, events, ranBefore, taken, rfl⟩ := m.exec_snoc.mp ran
    obtain ⟨meetsBefore, inside⟩ := (m.meets_snoc ranBefore).mp meets
    -- The invariant holds before the last action, so the action's own rule applies.
    have reached := m.exec_invariant_of_meets inv start keep ranBefore meetsBefore
    rw [m.meets_snoc ranBefore, ← ih ranBefore meetsBefore]
    exact exact_ t before a s events reached inside taken

/-- The same where it is so without a second condition. -/
theorem exec_iff_meets {ok : σ → α → Prop} (inv property : σ → List ε → Prop) {s₀ s : σ}
    {acts : List α} {trace : List ε} (start : inv s₀ []) (holds : property s₀ [])
    (keep : ∀ t before a u events, inv t before → m.step t a = some (u, events) →
      inv u (before ++ events))
    (exact_ : ∀ t before a u events, inv t before → m.step t a = some (u, events) →
      (property u (before ++ events) ↔ property t before ∧ ok t a))
    (ran : m.exec s₀ acts = some (s, trace)) : property s trace ↔ m.Meets ok s₀ acts :=
  m.exec_iff_meets_within inv property start holds
    (fun t before a u events reached _ => keep t before a u events reached)
    (fun t before a u events reached _ => exact_ t before a u events reached) ran
    (m.meets_of_forall (fun _ _ => trivial) s₀ acts)

/-- The same for a property that speaks of the trace alone. -/
theorem exec_property_iff_meets {ok : σ → α → Prop} (inv : σ → List ε → Prop)
    {property : List ε → Prop} {s₀ s : σ} {acts : List α} {trace : List ε}
    (start : inv s₀ []) (empty : property [])
    (keep : ∀ t before a u events, inv t before → m.step t a = some (u, events) →
      inv u (before ++ events))
    (closed : ∀ before events, property (before ++ events) → property before)
    (exact_ : ∀ t before a u events, inv t before → property before →
      m.step t a = some (u, events) → (property (before ++ events) ↔ ok t a))
    (ran : m.exec s₀ acts = some (s, trace)) : property trace ↔ m.Meets ok s₀ acts := by
  refine m.exec_iff_meets inv (fun _ => property) start empty keep ?_ ran
  intro t before a u events reached taken
  constructor
  · -- A property of the trace that holds now has held before the last action.
    intro whole
    have early := closed before events whole
    exact ⟨early, (exact_ t before a u events reached early taken).mp whole⟩
  · intro both
    exact (exact_ t before a u events reached both.1 taken).mpr both.2

/-- A property holds in every state that a run comes through, its first and its last one included. -/
def Along (property : σ → Prop) (s : σ) (acts : List α) : Prop :=
  ∀ before t trace, before <+: acts → m.exec s before = some (t, trace) → property t

/-- A longer run keeps a property all along when the shorter one does and its last state has it. -/
theorem along_snoc {property : σ → Prop} {s t u : σ} {acts : List α} {a : α}
    {trace events : List ε} (ran : m.exec s acts = some (t, trace))
    (taken : m.step t a = some (u, events)) :
    m.Along property s (acts ++ [a]) ↔ m.Along property s acts ∧ property u := by
  have whole : m.exec s (acts ++ [a]) = some (u, trace ++ events) :=
    m.exec_snoc.mpr ⟨t, trace, events, ran, taken, rfl⟩
  constructor
  · intro along
    refine ⟨?_, along _ u _ (List.prefix_refl _) whole⟩
    intro before v early prefix_ reached
    exact along before v early (prefix_.trans (List.prefix_append acts [a])) reached
  · intro both before v early prefix_ reached
    -- A part of the longer run is a part of the shorter one, or all of the longer one.
    rcases List.prefix_concat_iff.mp prefix_ with rfl | shorter
    · rw [whole] at reached
      cases reached
      exact both.2
    · exact both.1 before v early shorter reached

/-- What holds in every state of a run holds in its last one. -/
theorem Along.last {m : Machine σ α ε} {property : σ → Prop} {s t : σ} {acts : List α}
    {trace : List ε} (along : m.Along property s acts) (ran : m.exec s acts = some (t, trace)) :
    property t :=
  along acts t trace (List.prefix_refl acts) ran

/-- A property that every action keeps just when it meets a condition is kept all along by such runs. -/
theorem exec_along_iff_meets {ok : σ → α → Prop} (inv property : σ → Prop) {s₀ s : σ}
    {acts : List α} {trace : List ε} (start : inv s₀) (holds : property s₀)
    (keep : ∀ t a u events, inv t → m.step t a = some (u, events) → inv u)
    (exact_ : ∀ t a u events, inv t → property t → m.step t a = some (u, events) →
      (property u ↔ ok t a))
    (ran : m.exec s₀ acts = some (s, trace)) :
    m.Along property s₀ acts ↔ m.Meets ok s₀ acts := by
  induction acts using List.reverseRecOn generalizing s trace with
  | nil =>
    -- The empty run comes through its first state only.
    refine iff_of_true ?_ trivial
    intro before t early prefix_ reached
    obtain rfl := List.prefix_nil.mp prefix_
    cases reached
    exact holds
  | append_singleton acts a ih =>
    obtain ⟨t, before, events, ranBefore, taken, rfl⟩ := m.exec_snoc.mp ran
    have reached : inv t := m.exec_invariant (fun s _ => inv s) start
      (fun t _ a u events inside stepped => keep t a u events inside stepped) ranBefore
    rw [m.along_snoc ranBefore taken, m.meets_snoc ranBefore, ← ih ranBefore]
    apply and_congr_right
    intro along
    exact exact_ t a s events reached (along.last ranBefore) taken

/-- A machine whose steps are steps of another one, or unseen there, has runs of the other one. -/
theorem exec_project {τ : Type*} {β : Type*} {n : Machine τ β ε} (view : σ → τ)
    (steps : ∀ s a t events, m.step s a = some (t, events) →
      (∃ b, n.step (view s) b = some (view t, events)) ∨ (view t = view s ∧ events = []))
    {s t : σ} {acts : List α} {trace : List ε} (ran : m.exec s acts = some (t, trace)) :
    ∃ acts', n.exec (view s) acts' = some (view t, trace) := by
  induction acts using List.reverseRecOn generalizing t trace with
  | nil =>
    cases ran
    exact ⟨[], rfl⟩
  | append_singleton acts a ih =>
    obtain ⟨mid, before, events, ranBefore, taken, rfl⟩ := m.exec_snoc.mp ran
    obtain ⟨acts', early⟩ := ih ranBefore
    rcases steps mid a t events taken with ⟨b, stepped⟩ | ⟨same, rfl⟩
    · exact ⟨acts' ++ [b], n.exec_snoc.mpr ⟨view mid, before, events, early, stepped, rfl⟩⟩
    · -- A step that is not seen adds nothing to the run of the other machine.
      refine ⟨acts', ?_⟩
      rw [same, List.append_nil]
      exact early

/--
Two machines that stay related and show the same events at every action have the same runs.

Every list of actions is enabled in both, since each action is.
-/
theorem exec_simulation {τ : Type*} {m : Machine σ α ε} {n : Machine τ α ε} {related : σ → τ → Prop}
    (keep : ∀ s t a, related s t → ∃ s' t' events, m.step s a = some (s', events) ∧
      n.step t a = some (t', events) ∧ related s' t')
    {s : σ} {t : τ} (start : related s t) (acts : List α) :
    ∃ s' t' trace, m.exec s acts = some (s', trace) ∧ n.exec t acts = some (t', trace) ∧
      related s' t' := by
  -- The induction starts from any pair of related states, as the first action leads to one.
  induction acts generalizing s t with
  | nil => exact ⟨s, t, [], rfl, rfl, start⟩
  | cons a rest ih =>
    obtain ⟨s', t', events, left, right, next⟩ := keep s t a start
    obtain ⟨s'', t'', later, ranLeft, ranRight, last⟩ := ih next
    exact ⟨s'', t'', events ++ later, by simp [m.exec_cons left, ranLeft],
      by simp [n.exec_cons right, ranRight], last⟩

/--
Two machines that stay related while each action meets a condition have the same runs that meet it.

Every such list of actions is enabled in both.
-/
theorem exec_simulation_of_meets {τ : Type*} {m : Machine σ α ε} {n : Machine τ α ε}
    {related : σ → τ → Prop} {ok : σ → α → Prop}
    (keep : ∀ s t a, related s t → ok s a → ∃ s' t' events, m.step s a = some (s', events) ∧
      n.step t a = some (t', events) ∧ related s' t')
    {s : σ} {t : τ} (start : related s t) (acts : List α) (meets : m.Meets ok s acts) :
    ∃ s' t' trace, m.exec s acts = some (s', trace) ∧ n.exec t acts = some (t', trace) ∧
      related s' t' := by
  induction acts generalizing s t with
  | nil => exact ⟨s, t, [], rfl, rfl, start⟩
  | cons a rest ih =>
    obtain ⟨here, later⟩ := meets
    obtain ⟨s', t', events, left, right, next⟩ := keep s t a start here
    -- The rest of the run meets the condition from the state that the action leads to.
    obtain ⟨s'', t'', after, ranLeft, ranRight, last⟩ := ih next (later s' events left)
    exact ⟨s'', t'', events ++ after, by simp [m.exec_cons left, ranLeft],
      by simp [n.exec_cons right, ranRight], last⟩

/-- The same machine, of whose steps something else is seen. -/
def observe {ε' : Type*} (view : σ → α → σ → List ε') : Machine σ α ε' where
  step s a := (m.step s a).map fun next => (next.1, view s a next.1)

/-- A step that is seen so is a step, and shows the view of it. -/
theorem observe_step {ε' : Type*} {view : σ → α → σ → List ε'} {s t : σ} {a : α}
    {events : List ε'} :
    (m.observe view).step s a = some (t, events) ↔
      (∃ own, m.step s a = some (t, own)) ∧ events = view s a t := by
  simp only [observe, Option.map_eq_some_iff, Prod.exists, Prod.mk.injEq]
  constructor
  · intro seen
    obtain ⟨next, own, taken, rfl, rfl⟩ := seen
    exact ⟨⟨own, taken⟩, rfl⟩
  · intro both
    obtain ⟨⟨own, taken⟩, rfl⟩ := both
    exact ⟨t, own, taken, rfl, rfl⟩

end Machine

end Interleaving
