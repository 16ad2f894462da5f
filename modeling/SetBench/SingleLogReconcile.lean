import SetBench.DoubleLogReconcile
import SetBench.SingleLogHistory

/-! What the constructors of art_singular_log_leaves.h make of a log leaf whose entry is in
use, compared with the map of the leaf. -/
namespace SetBench.SingleLog

open Radix KeyVals
open DoubleLog (Spells Lists)

variable {K V : Type} [RadixKey K]

-- header::size of the CoW add and of both CoW removes.
def cowAddSize (size : Int) (log : LogEntry K V) : Int := if log.isDelete then size else size + 2

def cowRemoveSize (size : Int) (log : LogEntry K V) : Int := if log.isDelete then size - 2 else size

/-- The base map with the entry applied. -/
def effective (base : List (K × V)) (log : LogEntry K V) : K → Option V :=
  log.update (KeyVals.find base)

/-- An insert of (k, v) finds room for the pair in every array that may be built for it, and a
remove of k takes exactly its pair away. -/
structure Exact (base : List (K × V)) (log : LogEntry K V) (k : K) (v : V) : Prop where
  add : effective base log k = none →
    Spells (cowAdd base log k v) (Function.update (effective base log) k (some v)) ∧
    (cowAdd base log k v).length = cowAddSize base.length log ∧
    Spells (insertLogged base log k v) (Function.update (effective base log) k (some v))
  remove : effective base log k ≠ none →
    Spells (cowRemove base log k) (Function.update (effective base log) k none) ∧
    (cowRemove base log k).length = cowRemoveSize base.length log

section Arrays

variable {base : List (K × V)} {log : LogEntry K V} {key : K} (sorted : Sorted base)
    (consistent : log.Consistent base)
include sorted consistent

theorem mem_iff (k : K) (v : V) : (k, v) ∈ log.applyTo base ↔ effective base log k = some v := by
  rw [← consistent.find_iff (find_some_iff sorted k v), effective, LogEntry.update_eq]

theorem absent_of (missing : effective base log key = none) : ¬ Has (log.applyTo base) key := by
  rintro ⟨v, member⟩
  rw [mem_iff sorted consistent, missing] at member
  cases member

-- The array with the pair (key, value) added spells the map with it.
theorem spells_of_lists {built : List (K × V)} (missing : effective base log key = none) {value : V}
    (lists : Lists built fun entry => entry ∈ log.applyTo base ∨ entry = (key, value)) :
    Spells built (Function.update (effective base log) key (some value)) := by
  refine lists.of_iff fun k v => ?_
  rw [mem_iff sorted consistent, Prod.mk.injEq, Function.update_apply]
  by_cases same : k = key
  · simp [same, missing, eq_comm]
  · simp [same]

theorem insertLogged_spells (missing : effective base log key = none) (value : V) :
    Spells (insertLogged base log key value)
      (Function.update (effective base log) key (some value)) :=
  spells_of_lists sorted consistent missing
    (insertLogged_lists sorted consistent (absent_of sorted consistent missing) value).1

theorem cowAdd_length (missing : effective base log key = none) (value : V) :
    (cowAdd base log key value).length = cowAddSize base.length log := by
  have absent := absent_of sorted consistent missing
  have length := (insertLogged_lists sorted consistent absent value).2
  rw [cowAdd_eq sorted consistent absent, cowAddSize]
  split
  · rename_i back
    rw [if_pos back.1]
  · rw [length]
    split <;> rfl

-- The copy of the old pairs has the value that the entry deleted.
theorem cowAdd_spells_iff (missing : effective base log key = none) (value : V) :
    Spells (cowAdd base log key value) (Function.update (effective base log) key (some value)) ↔
      (log.isDelete = true → log.key = key → (key, value) ∈ base) := by
  have absent := absent_of sorted consistent missing
  rw [cowAdd_eq sorted consistent absent]
  split
  · rename_i back
    obtain ⟨kind, rfl⟩ := back
    constructor
    · intro spells _ _
      exact (spells.2 (log.key, value)).mpr (by simp)
    · intro kept
      refine spells_of_lists sorted consistent missing ⟨sorted, fun entry => ?_⟩
      simp only [LogEntry.mem_delete kind]
      constructor
      · intro old
        by_cases mine : entry.1 = log.key
        · have one := (find_some_iff sorted entry.1 entry.2).mpr old
          have two := (find_some_iff sorted log.key value).mpr (kept kind rfl)
          rw [mine, two] at one
          exact .inr (Prod.ext mine (Option.some.inj one).symm)
        · exact .inl ⟨old, mine⟩
      · rintro (⟨old, _⟩ | rfl)
        · exact old
        · exact kept kind rfl
  · rename_i other
    refine ⟨fun _ kind same => absurd ⟨kind, same⟩ other,
      fun _ => insertLogged_spells sorted consistent missing value⟩

theorem cowRemove_spells (present : effective base log key ≠ none) :
    Spells (cowRemove base log key) (Function.update (effective base log) key none) ∧
    (cowRemove base log key).length = cowRemoveSize base.length log := by
  obtain ⟨v, held⟩ := Option.ne_none_iff_exists'.mp present
  obtain ⟨lists, length⟩ :=
    cowRemove_lists sorted consistent ⟨v, (mem_iff sorted consistent key v).mpr held⟩
  refine ⟨lists.of_iff fun k v => ?_, length⟩
  rw [mem_iff sorted consistent, Function.update_apply]
  by_cases same : k = key
  · simp [same]
  · simp [same]

/-- Reconciliation is exact unless an insert brings back the key that the entry deleted with
another value. -/
theorem reconciled_iff_value_kept (k : K) (v : V) :
    Exact base log k v ↔ (log.isDelete = true → log.key = k → (k, v) ∈ base) := by
  constructor
  · rintro exact_ kind rfl
    have missing : effective base log log.key = none := by
      rw [effective, LogEntry.update, Function.update_self, if_pos kind]
    exact (cowAdd_spells_iff sorted consistent missing v).mp (exact_.add missing).1 kind rfl
  · intro kept
    refine ⟨fun missing => ⟨?_, ?_, ?_⟩, cowRemove_spells sorted consistent⟩
    · exact (cowAdd_spells_iff sorted consistent missing v).mpr kept
    · exact cowAdd_length sorted consistent missing v
    · exact insertLogged_spells sorted consistent missing v

end Arrays

def threePairs : List (Key × Nat) := [(1, 10), (2, 20), (3, 30)]

theorem threePairs_sorted : Sorted threePairs := by
  unfold Sorted
  decide

theorem threePairs_delete : (⟨true, 1, 0⟩ : LogEntry Key Nat).Consistent threePairs :=
  ⟨fun _ => ⟨10, by decide⟩, fun _ => rfl⟩

theorem other_key_exact : Exact threePairs (⟨true, 1, 0⟩ : LogEntry Key Nat) 4 40 :=
  (reconciled_iff_value_kept threePairs_sorted threePairs_delete 4 40).mpr fun _ same =>
  absurd same (by decide)

-- The new value of 1 is lost: the array keeps (1, 10).
theorem new_value_lost : ¬ ∀ (base : List (Key × Nat)) (log : LogEntry Key Nat) (k : Key) (v : Nat),
    Sorted base → log.Consistent base → Exact base log k v := by
  intro always
  have spells := ((always threePairs ⟨true, 1, 0⟩ 1 11 threePairs_sorted threePairs_delete).add
    (by decide)).1
  have held := (spells.2 (1, 11)).mpr (by decide)
  exact absurd held (by decide)

end SetBench.SingleLog
