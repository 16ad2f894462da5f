import Mathlib

/-! Open addressing. The search for a key walks its probe sequence and stops at an empty cell or
at the key; a table is chained when every key lies where the search for it stops. -/
namespace Probing

abbrev Cells (Key : Type) := Nat → Option Key

variable {Key : Type} {cells : Cells Key}

def Stops (cells : Cells Key) (k : Key) (place : Nat) : Prop :=
  cells place = none ∨ cells place = some k

instance [DecidableEq Key] (k : Key) (place : Nat) : Decidable (Stops cells k place) :=
  inferInstanceAs (Decidable (_ ∨ _))

structure EndsAt (cells : Cells Key) (probe : Nat → Nat) (k : Key) (j : Nat) : Prop where
  stops : Stops cells k (probe j)
  passes : ∀ i < j, ¬ Stops cells k (probe i)

def Stored (cells : Cells Key) (k : Key) : Prop := ∃ place, cells place = some k

def Chained (cells : Cells Key) (probe : Key → Nat → Nat) : Prop :=
  ∀ place k, cells place = some k → ∃ j, probe k j = place ∧ EndsAt cells (probe k) k j

/-- The search from position `j` of a probe sequence, for at most `fuel` positions. -/
def search [DecidableEq Key] (cells : Cells Key) (probe : Nat → Nat) (k : Key) :
    Nat → Nat → Option Nat
  | 0, _ => none
  | fuel + 1, j =>
      if Stops cells k (probe j) then some (probe j) else search cells probe k fuel (j + 1)

theorem EndsAt.unique {probe : Nat → Nat} {k : Key} {i j : Nat} (first : EndsAt cells probe k i)
    (second : EndsAt cells probe k j) : i = j := by
  rcases Nat.lt_trichotomy i j with less | same | more
  · exact absurd first.stops (second.passes i less)
  · exact same
  · exact absurd second.stops (first.passes j more)

theorem endsAt_of_stops {probe : Nat → Nat} {k : Key} {j : Nat} (stops : Stops cells k (probe j)) :
    ∃ i ≤ j, EndsAt cells probe k i := by
  classical
  have some_stop : ∃ i, Stops cells k (probe i) := ⟨j, stops⟩
  refine ⟨Nat.find some_stop, Nat.find_min' some_stop stops, Nat.find_spec some_stop,
    fun i less => ?_⟩
  exact Nat.find_min some_stop less

theorem search_from [DecidableEq Key] {probe : Nat → Nat} {k : Key} {j : Nat}
    (ends : EndsAt cells probe k j) {fuel start : Nat} (before : start ≤ j)
    (enough : j < start + fuel) :
    search cells probe k fuel start = some (probe j) := by
  induction fuel generalizing start with
  | zero => omega
  | succ fuel ih =>
      rw [search]
      by_cases here : start = j
      · rw [if_pos (here ▸ ends.stops), here]
      · rw [if_neg (ends.passes start (by omega))]
        exact ih (by omega) (by omega)

theorem search_some [DecidableEq Key] {probe : Nat → Nat} {k : Key} {fuel start place : Nat}
    (found : search cells probe k fuel start = some place) :
    ∃ j, probe j = place ∧ Stops cells k place := by
  induction fuel generalizing start with
  | zero => cases found
  | succ fuel ih =>
      rw [search] at found
      split at found
      · rename_i stops
        cases found
        exact ⟨start, rfl, stops⟩
      · exact ih found

section Chained

variable {probe : Key → Nat → Nat}

theorem chained_empty : Chained (fun _ => none : Cells Key) probe := by
  intro place k held
  cases held

/-- What the search for a key finds says whether the key is stored. -/
theorem Chained.found_iff (chained : Chained cells probe) {k : Key} {j : Nat}
    (ends : EndsAt cells (probe k) k j) :
    cells (probe k j) = some k ↔ Stored cells k := by
  constructor
  · exact fun held => ⟨_, held⟩
  · rintro ⟨place, held⟩
    obtain ⟨i, here, there⟩ := chained place k held
    rw [ends.unique there, here]
    exact held

theorem Chained.once (chained : Chained cells probe) {k : Key} {one other : Nat}
    (first : cells one = some k) (second : cells other = some k) : one = other := by
  obtain ⟨i, here, ends⟩ := chained one k first
  obtain ⟨j, there, ends'⟩ := chained other k second
  rw [← here, ← there, ends.unique ends']

theorem Chained.put (chained : Chained cells probe) {k : Key} {j : Nat}
    (ends : EndsAt cells (probe k) k j) :
    Chained (Function.update cells (probe k j) (some k)) probe := by
  rcases ends.stops with empty | held
  · intro place other stored
    by_cases here : place = probe k j
    · subst here
      rw [Function.update_self, Option.some.injEq] at stored
      subst stored
      refine ⟨j, rfl, Or.inr (Function.update_self _ _ _), fun i less => ?_⟩
      have pass := ends.passes i less
      have away : probe k i ≠ probe k j := fun same => pass (Or.inl (same ▸ empty))
      rw [Stops, Function.update_of_ne away]
      exact pass
    · rw [Function.update_of_ne here] at stored
      obtain ⟨i, there, chain⟩ := chained place other stored
      refine ⟨i, there, Or.inr ?_, fun before less => ?_⟩
      · rw [there, Function.update_of_ne here]
        exact stored
      · have pass := chain.passes before less
        have away : probe other before ≠ probe k j := fun same => pass (Or.inl (same ▸ empty))
        rw [Stops, Function.update_of_ne away]
        exact pass
  · rw [← held, Function.update_eq_self]
    exact chained

theorem stored_put {place : Nat} {k : Key} (stops : Stops cells k place) (other : Key) :
    Stored (Function.update cells place (some k)) other ↔ other = k ∨ Stored cells other := by
  constructor
  · rintro ⟨there, held⟩
    by_cases here : there = place
    · rw [here, Function.update_self, Option.some.injEq] at held
      exact .inl held.symm
    · rw [Function.update_of_ne here] at held
      exact .inr ⟨there, held⟩
  · rintro (rfl | ⟨there, held⟩)
    · exact ⟨place, Function.update_self _ _ _⟩
    · by_cases here : there = place
      · subst here
        rcases stops with empty | same
        · rw [empty] at held
          cases held
        · rw [same, Option.some.injEq] at held
          exact ⟨there, by rw [Function.update_self, held]⟩
      · exact ⟨there, by rw [Function.update_of_ne here]; exact held⟩

/-- Emptying a cell is harmless when no other key's search goes past it. -/
theorem Chained.drop (chained : Chained cells probe) {place : Nat}
    (unpassed : ∀ there k, there ≠ place → cells there = some k → ∀ j, EndsAt cells (probe k) k j →
      ∀ i < j, probe k i ≠ place) :
    Chained (Function.update cells place none) probe := by
  intro there k held
  by_cases here : there = place
  · rw [here, Function.update_self] at held
    cases held
  · rw [Function.update_of_ne here] at held
    obtain ⟨j, at_there, ends⟩ := chained there k held
    refine ⟨j, at_there, Or.inr ?_, fun i less => ?_⟩
    · rw [at_there, Function.update_of_ne here]
      exact held
    · rw [Stops, Function.update_of_ne (unpassed there k here held j ends i less)]
      exact ends.passes i less

theorem Chained.stored_drop (chained : Chained cells probe) {place : Nat} {k : Key}
    (held : cells place = some k) (other : Key) :
    Stored (Function.update cells place none) other ↔ other ≠ k ∧ Stored cells other := by
  constructor
  · rintro ⟨there, kept⟩
    by_cases here : there = place
    · rw [here, Function.update_self] at kept
      cases kept
    · rw [Function.update_of_ne here] at kept
      refine ⟨?_, there, kept⟩
      rintro rfl
      exact here (chained.once kept held)
  · rintro ⟨different, there, kept⟩
    refine ⟨there, ?_⟩
    rw [Function.update_of_ne]
    · exact kept
    · rintro rfl
      rw [held, Option.some.injEq] at kept
      exact different kept.symm

/-- With fewer keys than cells there is an empty cell. -/
theorem Chained.exists_empty (chained : Chained cells probe) {keys : Finset Key} {size : Nat}
    (only : ∀ k, Stored cells k → k ∈ keys) (fewer : keys.card < size) :
    ∃ place < size, cells place = none := by
  by_contra full
  push Not at full
  have holds (place : Fin size) : ∃ k, cells place = some k :=
    Option.ne_none_iff_exists'.mp (full place place.isLt)
  choose key held using holds
  have injective : Function.Injective key := by
    intro one other same
    exact Fin.ext (chained.once (held one) (same ▸ held other))
  have fits := Finset.card_le_card_of_injOn (s := (Finset.univ : Finset (Fin size))) (t := keys) key
    (fun place _ => only _ ⟨place, held place⟩) injective.injOn
  rw [Finset.card_univ, Fintype.card_fin] at fits
  omega

end Chained

/-! Linear probing: the next place is a function of the last one. -/

section Linear

variable [DecidableEq Key] {next : Nat → Nat}

def linearSearch (cells : Cells Key) (next : Nat → Nat) (k : Key) : Nat → Nat → Option Nat
  | 0, _ => none
  | fuel + 1, place =>
      if Stops cells k place then some place else linearSearch cells next k fuel (next place)

theorem linearSearch_eq (cells : Cells Key) (next : Nat → Nat) (k : Key) (first fuel j : Nat) :
    linearSearch cells next k fuel (next^[j] first) = search cells (fun j => next^[j] first) k fuel
      j := by
  induction fuel generalizing j with
  | zero => rfl
  | succ fuel ih =>
      rw [linearSearch, search, ← ih (j + 1), Function.iterate_succ_apply']

end Linear

end Probing
