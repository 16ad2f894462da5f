import SetBench.HashsetNew

/-! hashset of hashtable.h, the set with a fixed table of 32 cells. The next index of a probe
is ix + 1 % 32, which never wraps, an erased cell cuts the chains that go through it, and
nothing but the constructor resets `cleared`. -/
namespace SetBench.FixedTable

open Probing HashsetNew

def tableSize : Nat := 32

-- int hash(K*)
def hash (key : Pointer) : BitVec 32 := (HashsetNew.hash key).setWidth 32

structure Hashset where
  cleared : Bool
  keys : Cells Pointer

def firstIndex (key : Pointer) : Nat := (hash key).toNat &&& (tableSize - 1)

-- As the macro expands: the remainder is taken of 1.
def nextIndex (ix : Nat) : Nat := ix + 1 % tableSize

namespace Hashset

variable (set : Hashset)

/-- `none` when the loop would read a cell behind the last one. -/
def getIndex (key : Pointer) : Option Nat :=
  linearSearch set.keys nextIndex key (tableSize - firstIndex key) (firstIndex key)

def clear : Hashset := if !set.cleared then ⟨true, fun _ => none⟩ else set

def get (key : Pointer) : Option (Option Pointer) := (set.getIndex key).map set.keys

def contains (key : Pointer) : Option Bool := (set.get key).map Option.isSome

def insert (key : Pointer) : Option Hashset :=
  (set.getIndex key).map fun ix => { set with keys := Function.update set.keys ix (some key) }

def erase (key : Pointer) : Option Hashset :=
  (set.getIndex key).map fun ix => { set with keys := Function.update set.keys ix none }

end Hashset

def new (fresh : Cells Pointer) : Hashset := Hashset.clear ⟨false, fresh⟩

inductive Call where
  | insert (key : Pointer)
  | erase (key : Pointer)
  | clear

def Hashset.call (set : Hashset) : Call → Option Hashset
  | .insert key => set.insert key
  | .erase key => set.erase key
  | .clear => some set.clear

def Hashset.run (set : Hashset) : List Call → Option Hashset
  | [] => some set
  | call :: rest => (set.call call).bind fun set => run set rest

/-! The set that the calls stand for. -/

def apply (keys : Finset Pointer) : Call → Finset Pointer
  | .insert key => Insert.insert key keys
  | .erase key => keys.erase key
  | .clear => ∅

def present (calls : List Call) : Finset Pointer := calls.foldl apply ∅

/-- Every search ends in the table and tells the keys that are present. -/
structure Correct (set : Hashset) (keys : Finset Pointer) : Prop where
  inside : ∀ key, ∃ ix < tableSize, set.getIndex key = some ix
  contains : ∀ key, set.contains key = some (decide (key ∈ keys))

/-- An insertion lands before the last cell, so that this one stays empty and ends every search;
an erased key is in no other key's chain; only an empty set is cleared. -/
def Harmless (set : Hashset) : Call → Prop
  | .insert key => ∃ ix < tableSize - 1, firstIndex key ≤ ix ∧ Stops set.keys key ix
  | .erase key =>
      ∀ ix, set.keys ix = some key → ∀ there other, ix < there → set.keys there = some other →
        ix < firstIndex other
  | .clear => ∀ ix < tableSize, set.keys ix = none

def Careful (set : Hashset) : List Call → Prop
  | [] => True
  | call :: rest => Harmless set call ∧ ∀ next, set.call call = some next → Careful next rest

def probe (key : Pointer) (j : Nat) : Nat := nextIndex^[j] (firstIndex key)

theorem iterate_nextIndex (first j : Nat) : nextIndex^[j] first = first + j := by
  induction j with
  | zero => rfl
  | succ j ih =>
      rw [Function.iterate_succ_apply', ih]
      rfl

theorem probe_eq (key : Pointer) (j : Nat) : probe key j = firstIndex key + j :=
  iterate_nextIndex (firstIndex key) j

theorem firstIndex_lt (key : Pointer) : firstIndex key < tableSize := by
  rw [firstIndex, show tableSize - 1 = 2 ^ 5 - 1 from rfl, Nat.and_two_pow_sub_one_eq_mod]
  exact Nat.mod_lt _ (by decide)

/-- The last cell stays empty. -/
structure Inv (set : Hashset) (keys : Finset Pointer) : Prop where
  cleared : set.cleared = true
  chained : Chained set.keys probe
  stored : ∀ key, Stored set.keys key ↔ key ∈ keys
  last : ∀ ix, tableSize - 1 ≤ ix → set.keys ix = none

section Inv

variable {set : Hashset} {keys : Finset Pointer}

theorem Inv.getIndex (inv : Inv set keys) (key : Pointer) :
    ∃ j, firstIndex key + j < tableSize ∧ EndsAt set.keys (probe key) key j ∧ set.getIndex key =
      some (probe key j) := by
  have low := firstIndex_lt key
  have at_last : probe key (tableSize - 1 - firstIndex key) = tableSize - 1 := by
    rw [probe_eq]
    omega
  have stops : Stops set.keys key (probe key (tableSize - 1 - firstIndex key)) := by
    rw [at_last]
    exact .inl (inv.last (tableSize - 1) (Nat.le_refl _))
  obtain ⟨j, before, ends⟩ := endsAt_of_stops stops
  refine ⟨j, by omega, ends, ?_⟩
  have walk := linearSearch_eq set.keys nextIndex key (firstIndex key)
    (tableSize - firstIndex key) 0
  have same : (fun j => nextIndex^[j] (firstIndex key)) = probe key := rfl
  rw [Function.iterate_zero_apply, same] at walk
  rw [Hashset.getIndex, walk]
  exact search_from ends (Nat.zero_le j) (by omega)

theorem Inv.correct (inv : Inv set keys) : Correct set keys := by
  refine ⟨fun key => ?_, fun key => ?_⟩
  · obtain ⟨j, inside, _, found⟩ := inv.getIndex key
    exact ⟨probe key j, by rw [probe_eq]; exact inside, found⟩
  · obtain ⟨j, _, ends, found⟩ := inv.getIndex key
    rw [Hashset.contains, Hashset.get, found, Option.map_some, Option.map_some]
    congr 1
    rw [Bool.eq_iff_iff, decide_eq_true_iff, ← inv.stored, ← inv.chained.found_iff ends]
    rcases ends.stops with empty | held
    · simp [empty]
    · simp [held]

theorem Inv.insert (inv : Inv set keys) {key : Pointer} (harmless : Harmless set (.insert key)) :
    ∃ after, set.insert key = some after ∧ Inv after (Insert.insert key keys) := by
  obtain ⟨ix, below, above, stops⟩ := harmless
  obtain ⟨j, _, ends, found⟩ := inv.getIndex key
  have lands : probe key j < tableSize - 1 := by
    have at_ix : probe key (ix - firstIndex key) = ix := by
      rw [probe_eq]
      omega
    rw [← at_ix] at stops
    obtain ⟨i, earlier, ends'⟩ := endsAt_of_stops stops
    have := ends.unique ends'
    rw [probe_eq]
    omega
  have inserted : set.insert key =
    some { set with keys := Function.update set.keys (probe key j) (some key) } := by
    rw [Hashset.insert, found, Option.map_some]
  refine ⟨_, inserted, inv.cleared, inv.chained.put ends, fun other => ?_, fun ix high => ?_⟩
  · rw [stored_put ends.stops, inv.stored, Finset.mem_insert]
  · have away : ix ≠ probe key j := by omega
    change Function.update set.keys (probe key j) (some key) ix = none
    rw [Function.update_of_ne away]
    exact inv.last ix high

theorem Inv.erase (inv : Inv set keys) {key : Pointer} (harmless : Harmless set (.erase key)) :
    ∃ after, set.erase key = some after ∧ Inv after (keys.erase key) := by
  obtain ⟨j, _, ends, found⟩ := inv.getIndex key
  have erased : set.erase key =
    some { set with keys := Function.update set.keys (probe key j) none } := by
    rw [Hashset.erase, found, Option.map_some]
  refine ⟨_, erased, inv.cleared, ?_, fun other => ?_, fun ix high => ?_⟩
  · rcases ends.stops with empty | held
    · rw [Function.update_eq_self_iff.mpr empty.symm]
      exact inv.chained
    · apply inv.chained.drop
      intro there other away kept after chain i earlier same
      obtain ⟨place, at_there, chain'⟩ := inv.chained there other kept
      have here := chain.unique chain'
      rw [probe_eq] at same at_there
      have := harmless _ held there other (by omega) kept
      omega
  · rcases ends.stops with empty | held
    · have absent : key ∉ keys := by
        rw [← inv.stored, ← inv.chained.found_iff ends, empty]
        intro held
        cases held
      rw [Function.update_eq_self_iff.mpr empty.symm, inv.stored, Finset.mem_erase]
      refine ⟨fun member => ⟨?_, member⟩, fun both => both.2⟩
      rintro rfl
      exact absent member
    · rw [inv.chained.stored_drop held, inv.stored, Finset.mem_erase]
  · change Function.update set.keys (probe key j) none ix = none
    by_cases here : ix = probe key j
    · rw [here, Function.update_self]
    · rw [Function.update_of_ne here]
      exact inv.last ix high

theorem Inv.clear (inv : Inv set keys) (harmless : Harmless set .clear) : Inv set.clear ∅ := by
  have none_left : keys = ∅ := by
    rw [Finset.eq_empty_iff_forall_notMem]
    intro key member
    obtain ⟨ix, held⟩ := (inv.stored key).mpr member
    have empty : set.keys ix = none := by
      by_cases low : ix < tableSize
      · exact harmless ix low
      · exact inv.last ix (by omega)
    rw [held] at empty
    cases empty
  rw [Hashset.clear, inv.cleared, ← none_left]
  exact inv

theorem inv_new (fresh : Cells Pointer) : Inv (new fresh) ∅ := by
  refine ⟨rfl, chained_empty, fun key => ⟨?_, ?_⟩, fun _ _ => rfl⟩
  · rintro ⟨_, held⟩
    cases held
  · intro member
    cases member

theorem Inv.call (inv : Inv set keys) {call : Call} (harmless : Harmless set call) :
    ∃ after, set.call call = some after ∧ Inv after (apply keys call) := by
  cases call with
  | insert key => exact inv.insert harmless
  | erase key => exact inv.erase harmless
  | clear => exact ⟨_, rfl, inv.clear harmless⟩

theorem Inv.run (inv : Inv set keys) (calls : List Call) (careful : Careful set calls) :
    ∃ after, set.run calls = some after ∧ Inv after (calls.foldl apply keys) := by
  induction calls generalizing set keys with
  | nil => exact ⟨set, rfl, inv⟩
  | cons call rest ih =>
      obtain ⟨next, called, kept⟩ := inv.call careful.1
      obtain ⟨after, ran, kept⟩ := ih kept (careful.2 next called)
      exact ⟨after, by rw [Hashset.run, called]; exact ran, kept⟩

end Inv

/-- A run of careful calls leaves a correct set. -/
theorem careful_correct (fresh : Cells Pointer) (calls : List Call)
    (careful : Careful (new fresh) calls) :
    ∃ set, (new fresh).run calls = some set ∧ Correct set (present calls) := by
  obtain ⟨set, ran, inv⟩ := (inv_new fresh).run calls careful
  exact ⟨set, ran, inv.correct⟩

-- Key 1 goes to cell 3 and key 7 to cell 4, where its own chain begins: the erase does not cut it.
theorem careful_erase :
    ∃ set, (new fun _ => none).run
      [.clear, .insert (pointer 1), .insert (pointer 7), .erase (pointer 1)] = some set ∧
      Correct set
        (present [.clear, .insert (pointer 1), .insert (pointer 7), .erase (pointer 1)]) := by
  apply careful_correct
  refine ⟨fun _ _ => rfl, fun cleared called => ?_⟩
  cases called
  have first : (new fun _ => none).clear.getIndex (pointer 1) = some 3 := by decide +kernel
  refine ⟨⟨3, by decide, by decide +kernel, .inl rfl⟩, fun one called => ?_⟩
  rw [Hashset.call, Hashset.insert, first] at called
  cases called
  have second : Hashset.getIndex ⟨true, Function.update (fun _ => none) 3 (some (pointer 1))⟩
    (pointer 7) = some 4 := by decide +kernel
  refine ⟨⟨4, by decide, by decide +kernel, .inl rfl⟩, fun two called => ?_⟩
  have inserted : two = ⟨true, Function.update (Function.update (fun _ => none) 3
    (some (pointer 1))) 4 (some (pointer 7))⟩ := by
    refine (Option.some.inj (called.symm.trans ?_))
    exact congrArg (Option.map _) second
  subst inserted
  refine ⟨fun ix here there other above at_there => ?_, fun _ _ => trivial⟩
  have apart : pointer 7 ≠ pointer 1 := by decide
  have cell : ix = 3 := by
    by_contra away
    dsimp only at here
    by_cases last : ix = 4
    · rw [last, Function.update_self] at here
      exact apart (Option.some.inj here)
    · rw [Function.update_of_ne last, Function.update_of_ne away] at here
      cases here
  have other_cell : there = 4 := by
    by_contra away
    dsimp only at at_there
    rw [Function.update_of_ne away, Function.update_of_ne (by omega)] at at_there
    cases at_there
  subst cell other_cell
  cases at_there
  decide +kernel

theorem card_present_le (calls : List Call) (keys : Finset Pointer) :
    (calls.foldl apply keys).card ≤ keys.card + calls.length := by
  induction calls generalizing keys with
  | nil => simp
  | cons call rest ih =>
      have step : (apply keys call).card ≤ keys.card + 1 := by
        cases call with
        | insert key => exact Finset.card_insert_le key keys
        | erase key => exact (Finset.card_erase_le).trans (Nat.le_succ _)
        | clear => simp [apply]
      have := ih (apply keys call)
      rw [List.foldl_cons, List.length_cons]
      omega

/-- The key of a set that was cleared is still in it: the constructor left `cleared` set. -/
theorem cleared_key_found :
    ¬ ∀ calls, (∀ before, before <+: calls → (present before).card < tableSize) →
    ∃ set, (new fun _ => none).run calls = some set ∧ Correct set (present calls) := by
  intro claim
  obtain ⟨set, ran, correct⟩ := claim [.insert (pointer 0), .clear] fun before start => by
    have count := card_present_le before ∅
    have length := start.length_le
    simp only [List.length_cons, List.length_nil, Finset.card_empty] at count length
    rw [present, tableSize]
    omega
  have found : ((new fun _ => none).run [.insert (pointer 0), .clear]).bind
    (·.contains (pointer 0)) = some true := by
    decide +kernel
  rw [ran, Option.bind_some, correct.contains] at found
  simp [present, apply] at found

end SetBench.FixedTable
