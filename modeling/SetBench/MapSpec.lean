import Mathlib

/-! Maps driven by single attempts. An implementation is one attempt at a call, which
may ask for a retry; the abstract map answers every call at once. A simulation of one
attempt carries over to whole runs. Nothing here knows what the implementation is. -/
namespace SetBench.MapSpec

variable {K V S : Type}

inductive Op (K V : Type) where
  | insert (k : K) (v : V)
  | remove (k : K)
  deriving DecidableEq, Repr

/-- The abstract map: an insert does not overwrite, and both calls return the value that
was there, or `noValue`. -/
def specStep [DecidableEq K] (noValue : V) (map : K → Option V) : Op K V → (K → Option V) × V
  | .insert k v =>
      match map k with
      | some old => (map, old)
      | none => (Function.update map k (some v), noValue)
  | .remove k =>
      match map k with
      | some old => (Function.update map k none, old)
      | none => (map, noValue)

def specRun [DecidableEq K] (noValue : V) : List (Op K V) → (K → Option V) → (K → Option V) × List V
  | [], map => (map, [])
  | op :: rest, map =>
      let next := specStep noValue map op
      let tail := specRun noValue rest next.1
      (tail.1, next.2 :: tail.2)

-- flck::try_loop, cut off after a number of rounds; `none` when no round gave a value
def tryLoop (attempt : S → S × Option V) : Nat → S → S × Option V
  | 0, s => (s, none)
  | rounds + 1, s =>
      match attempt s with
      | (next, some result) => (next, some result)
      | (next, none) => tryLoop attempt rounds next

def runOps (attempt : Op K V → S → S × Option V) (rounds : Nat) :
    List (Op K V) → S → S × List (Option V)
  | [], s => (s, [])
  | op :: rest, s =>
      let next := tryLoop (attempt op) rounds s
      let tail := runOps attempt rounds rest next.1
      (tail.1, next.2 :: tail.2)

/-- Every call of a run is made in a state that meets the condition. -/
def Along (attempt : Op K V → S → S × Option V) (condition : S → Op K V → Prop) (rounds : Nat) :
    List (Op K V) → S → Prop
  | [], _ => True
  | op :: rest, s =>
      condition s op ∧ Along attempt condition rounds rest (tryLoop (attempt op) rounds s).1

instance instDecidableAlong {attempt : Op K V → S → S × Option V} {condition : S → Op K V → Prop}
    [∀ s op, Decidable (condition s op)] {rounds : Nat} :
    ∀ (ops : List (Op K V)) (s : S), Decidable (Along attempt condition rounds ops s)
  | [], _ => isTrue trivial
  | op :: rest, s =>
      have : Decidable (Along attempt condition rounds rest (tryLoop (attempt op) rounds s).1) :=
        instDecidableAlong rest _
      inferInstanceAs (Decidable (_ ∧ _))

theorem tryLoop_first {attempt : S → S × Option V} {s next : S} {result : V} (rounds : Nat)
    (done : attempt s = (next, some result)) :
    tryLoop attempt (rounds + 1) s = (next, some result) := by
  rw [tryLoop, done]

/-- The first attempt returns what the abstract map returns and keeps the relation. -/
def Simulates [DecidableEq K] (attempt : Op K V → S → S × Option V) (noValue : V)
    (Represents : S → (K → Option V) → Prop) (condition : S → Op K V → Prop) : Prop :=
  ∀ s map op, Represents s map → condition s op →
    ∃ next, attempt op s = (next, some (specStep noValue map op).2) ∧
      Represents next (specStep noValue map op).1

/-- A simulated run returns the answers of the abstract map and ends in its contents. -/
theorem run_simulates [DecidableEq K] {attempt : Op K V → S → S × Option V} {noValue : V}
    {Represents : S → (K → Option V) → Prop} {condition : S → Op K V → Prop}
    (simulates : Simulates attempt noValue Represents condition) (rounds : Nat)
    (ops : List (Op K V)) {s : S} {map : K → Option V} (start : Represents s map)
    (along : Along attempt condition (rounds + 1) ops s) :
    Represents (runOps attempt (rounds + 1) ops s).1 (specRun noValue ops map).1 ∧
    (runOps attempt (rounds + 1) ops s).2 = (specRun noValue ops map).2.map some := by
  induction ops generalizing s map with
  | nil => exact ⟨start, rfl⟩
  | cons op rest ih =>
      obtain ⟨here, later⟩ := along
      obtain ⟨next, done, kept⟩ := simulates s map op start here
      rw [tryLoop_first rounds done] at later
      obtain ⟨contents, answers⟩ := ih kept later
      simp only [runOps, tryLoop_first rounds done, specRun, List.map_cons, answers]
      exact ⟨contents, trivial⟩

/-- An invariant that one attempt keeps where the condition holds, and that a retry does
not touch, holds at the end of a run. -/
theorem run_keeps {attempt : Op K V → S → S × Option V} {Inv : S → Prop}
    {condition : S → Op K V → Prop}
    (keeps : ∀ s op, Inv s → condition s op → Inv (attempt op s).1)
    (retry : ∀ s op, (attempt op s).2 = none → (attempt op s).1 = s) (rounds : Nat)
    (ops : List (Op K V)) {s : S} (start : Inv s) (along : Along attempt condition rounds ops s) :
    Inv (runOps attempt rounds ops s).1 := by
  have call (op : Op K V) (rounds : Nat) {s : S} (held : Inv s) (here : condition s op) :
      Inv (tryLoop (attempt op) rounds s).1 := by
    induction rounds with
    | zero => exact held
    | succ rounds ih =>
        have kept := keeps s op held here
        have same := retry s op
        rw [tryLoop]
        rcases result : attempt op s with ⟨next, _ | value⟩
        · rw [result] at same
          cases same rfl
          exact ih
        · rw [result] at kept
          exact kept
  induction ops generalizing s with
  | nil => exact start
  | cons op rest ih => exact ih (call op rounds start along.1) along.2

/-- A property that one attempt keeps exactly where the condition holds survives a run
exactly when the condition holds along it. -/
theorem run_keeps_iff {attempt : Op K V → S → S × Option V} {Inv Good : S → Prop}
    {condition : S → Op K V → Prop} (keeps : ∀ s op, Inv s → Inv (attempt op s).1)
    (decides : ∀ s op, Inv s → (Good (attempt op s).1 ↔ Good s ∧ condition s op))
    (retry : ∀ s op, (attempt op s).2 = none → (attempt op s).1 = s) (rounds : Nat)
    (ops : List (Op K V)) {s : S} (start : Inv s) : Good (runOps attempt (rounds + 1) ops s).1 ↔
      Good s ∧ Along attempt condition (rounds + 1) ops s := by
  have call (op : Op K V) (rounds : Nat) {s : S} (held : Inv s) :
    Inv (tryLoop (attempt op) (rounds + 1) s).1 ∧
      (Good (tryLoop (attempt op) (rounds + 1) s).1 ↔ Good s ∧ condition s op) := by
    induction rounds with
    | zero =>
        have kept := keeps s op held
        have decided := decides s op held
        rw [tryLoop]
        rcases result : attempt op s with ⟨next, _ | value⟩
        all_goals
          rw [result] at kept decided
          exact ⟨kept, decided⟩
    | succ rounds ih =>
        have kept := keeps s op held
        have decided := decides s op held
        have same := retry s op
        rw [tryLoop]
        rcases result : attempt op s with ⟨next, _ | value⟩
        · rw [result] at same
          cases same rfl
          exact ih
        · rw [result] at kept decided
          exact ⟨kept, decided⟩
  induction ops generalizing s with
  | nil => exact (and_iff_left trivial).symm
  | cons op rest ih =>
      obtain ⟨kept, decided⟩ := call op rounds start
      have later := ih kept
      rw [decided, and_assoc] at later
      exact later

theorem along_append {attempt : Op K V → S → S × Option V} {condition : S → Op K V → Prop}
    {rounds : Nat} {done rest : List (Op K V)} {s : S}
    (along : Along attempt condition rounds (done ++ rest) s) :
    Along attempt condition rounds done s := by
  induction done generalizing s with
  | nil => trivial
  | cons op done ih => exact ⟨along.1, ih along.2⟩

theorem along_always {attempt : Op K V → S → S × Option V} (rounds : Nat) (ops : List (Op K V))
    (s : S) :
    Along attempt (fun _ _ => True) rounds ops s := by
  induction ops generalizing s with
  | nil => trivial
  | cons op rest ih => exact ⟨trivial, ih _⟩

end SetBench.MapSpec
