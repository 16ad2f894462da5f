import Mathlib

/-! Labelled transition systems with a partial step function. Threads act one
atomic step at a time, so an interleaving is a list of events and a run replays
it from an initial state. `ok` is the discipline the callers keep at every step;
a run of arbitrary callers uses `fun _ _ => True`. -/
namespace SetBench.Transition

-- The numerals of the threads and slots of small systems.
instance neZeroTwo : NeZero 2 := ⟨Nat.succ_ne_zero 1⟩

instance neZeroThree : NeZero 3 := ⟨Nat.succ_ne_zero 2⟩

universe u v
variable {State : Type u} {Event : Type v}

inductive Run (step : State → Event → Option State) (ok : State → Event → Prop)
    (start : State) : List Event → State → Prop where
  | refl : Run step ok start [] start
  | next {events : List Event} {before after : State} (event : Event)
      (past : Run step ok start events before) (kept : ok before event)
      (stepped : step before event = some after) : Run step ok start (events ++ [event]) after

def free (_ : State) (_ : Event) : Prop := True

theorem run_invariant {step : State → Event → Option State} {ok : State → Event → Prop}
    (inv : State → Prop) {start : State} (initial : inv start)
    (preserved : ∀ before event after, inv before → ok before event →
      step before event = some after → inv after)
    {events : List Event} {last : State} (run : Run step ok start events last) : inv last := by
  induction run with
  | refl => exact initial
  | next event _ kept stepped ih => exact preserved _ event _ ih kept stepped

/-- The steps after which `good` holds. -/
def leading (step : State → Event → Option State) (good : State → Prop) (before : State)
    (event : Event) : Prop :=
  ∀ after, step before event = some after → good after

/-- A discipline that steps break exactly where they lose `good` describes the runs all
of whose states are good. -/
theorem run_leading_iff {step : State → Event → Option State} {ok : State → Event → Prop}
    {good inv : State → Prop} {start : State} (initial : inv start)
    (kept : ∀ before event after, inv before → ok before event →
      step before event = some after → inv after ∧ good after)
    (lost : ∀ before event after, inv before → ¬ ok before event →
      step before event = some after → ¬ good after)
    {events : List Event} {last : State} :
    Run step (leading step good) start events last ↔ Run step ok start events last := by
  have holds {events : List Event} {last : State} (run : Run step ok start events last) :
    inv last :=
    run_invariant inv initial
      (fun before event after inv ok stepped => (kept before event after inv ok stepped).1) run
  constructor
  · intro run
    induction run with
    | refl => exact .refl
    | next event _ stays stepped ih =>
        refine .next event ih ?_ stepped
        by_contra broken
        exact lost _ event _ (holds ih) broken stepped (stays _ stepped)
  · intro run
    induction run with
    | refl => exact .refl
    | next event past ok stepped ih =>
        refine .next event ih (fun after there => ?_) stepped
        exact (kept _ event after (holds past) ok there).2

instance (state : State) (event : Event) : Decidable (free state event) := .isTrue trivial

-- A replay of a concrete interleaving; the executable face of `Run`.
def replay (step : State → Event → Option State) (ok : State → Event → Prop)
    [∀ state event, Decidable (ok state event)] : List Event → State → Option State
  | [], state => some state
  | event :: rest, state =>
      if ok state event then (step state event).bind (replay step ok rest) else none

section Replay

variable {step : State → Event → Option State} {ok : State → Event → Prop}
  [∀ state event, Decidable (ok state event)]

theorem replay_append (first second : List Event) (state : State) :
    replay step ok (first ++ second) state =
      (replay step ok first state).bind (replay step ok second) := by
  induction first generalizing state with
  | nil => rfl
  | cons event rest ih =>
      simp only [List.cons_append, replay]
      split
      · cases step state event with
        | none => rfl
        | some middle => exact ih middle
      · rfl

theorem run_of_replay {start : State} (events : List Event) {last : State}
    (replayed : replay step ok events start = some last) : Run step ok start events last := by
  induction events using List.reverseRecOn generalizing last with
  | nil =>
      cases Option.some.inj replayed
      exact .refl
  | append_singleton rest event ih =>
      rw [replay_append] at replayed
      obtain ⟨middle, past, tail⟩ := Option.bind_eq_some_iff.mp replayed
      simp only [replay, Option.ite_none_right_eq_some] at tail
      obtain ⟨kept, tail⟩ := tail
      obtain ⟨after, stepped, same⟩ := Option.bind_eq_some_iff.mp tail
      cases Option.some.inj same
      exact .next event (ih past) kept stepped

end Replay

section Inevitable

variable (step : State → Event → Option State) (own : Event → Prop) (done : State → Prop)

/-- Every run of the events of `own` comes to a state that is `done`, and none stops before. -/
inductive Inevitable : State → Prop where
  | here {state : State} (finished : done state) : Inevitable state
  | later {state : State} (enabled : ∃ event after, own event ∧ step state event = some after)
      (next : ∀ event after, own event → step state event = some after → Inevitable after) :
      Inevitable state

variable {step own done}

-- A trap: from it the events of `own` can go on inside it for ever.
theorem Inevitable.not_trap (trap : State → Prop)
    (unfinished : ∀ state, trap state → ¬ done state)
    (stays : ∀ state, trap state → ∃ event after, own event ∧ step state event = some after ∧
      trap after)
    {state : State} (inevitable : Inevitable step own done state) : ¬ trap state := by
  induction inevitable with
  | here finished => exact fun trapped => unfinished _ trapped finished
  | later _ _ ih =>
      intro trapped
      obtain ⟨event, after, owned, stepped, still⟩ := stays _ trapped
      exact ih event after owned stepped still

end Inevitable

end SetBench.Transition
