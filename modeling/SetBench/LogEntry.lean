import SetBench.KeyMerge

/-! One entry of a log leaf: an insert or a delete that was recorded beside the array of
pairs, in the words both log-leaf variants share. -/
namespace SetBench

open Radix KeyVals

/-- The value of a delete entry is never read. -/
structure LogEntry (K V : Type) where
  isDelete : Bool
  key : K
  value : V

namespace LogEntry

variable {K V : Type} [RadixKey K]

def pair (e : LogEntry K V) : K × V := (e.key, e.value)

-- What the entry itself says about `k`.
def answer (e : LogEntry K V) (k : K) : Option (Option V) :=
  if e.key = k then some (if e.isDelete then none else some e.value) else none

/-- The pairs after the entry. -/
def applyTo (e : LogEntry K V) (entries : List (K × V)) : List (K × V) :=
  if e.isDelete then entries.filter fun kv => kv.1 ≠ e.key else entries ++ [e.pair]

/-- A delete is recorded for a key that is there, an insert for one that is not. -/
def Consistent (e : LogEntry K V) (entries : List (K × V)) : Prop :=
  e.isDelete = true ↔ ∃ v, (e.key, v) ∈ entries

variable {e : LogEntry K V} {entries : List (K × V)}

theorem mem_delete (deletes : e.isDelete = true) (entry : K × V) :
    entry ∈ e.applyTo entries ↔ entry ∈ entries ∧ entry.1 ≠ e.key := by
  simp [applyTo, deletes, List.mem_filter]

theorem mem_insert (inserts : e.isDelete = false) (entry : K × V) :
    entry ∈ e.applyTo entries ↔ entry ∈ entries ∨ entry = e.pair := by
  simp [applyTo, inserts]

omit [RadixKey K] in
theorem Consistent.absent (consistent : e.Consistent entries) (inserts : e.isDelete = false)
    (v : V) :
    (e.key, v) ∉ entries := by
  intro member
  have := consistent.mpr ⟨v, member⟩
  rw [inserts] at this
  cases this

omit [RadixKey K] in
theorem Consistent.present (consistent : e.Consistent entries) (deletes : e.isDelete = true) :
    ∃ v, (e.key, v) ∈ entries := consistent.mp deletes

theorem Consistent.distinct (consistent : e.Consistent entries) (distinct : Distinct entries) :
    Distinct (e.applyTo entries) := by
  unfold applyTo
  split
  · exact distinct.filter _
  · rename_i inserts
    refine List.pairwise_append.mpr ⟨distinct, List.pairwise_singleton _ _,
      fun one member other last => ?_⟩
    rw [List.mem_singleton.mp last]
    intro same
    have same : one.1 = e.key := same
    exact consistent.absent (Bool.eq_false_iff.mpr inserts) one.2 (by rw [← same]; exact member)

/-- The answer of the entry, or that of the pairs before it, is the answer of the pairs
after it. -/
theorem Consistent.find_iff (consistent : e.Consistent entries) {k : K} {before : Option V} {v : V}
    (found : before = some v ↔ (k, v) ∈ entries) :
    (e.answer k).getD before = some v ↔ (k, v) ∈ e.applyTo entries := by
  unfold answer
  cases kind : e.isDelete with
  | true =>
      rw [mem_delete kind]
      by_cases same : e.key = k
      · simp [same]
      · rw [if_neg same, Option.getD_none, found]
        exact ⟨fun member => ⟨member, Ne.symm same⟩, And.left⟩
  | false =>
      rw [mem_insert kind, pair, Prod.mk.injEq]
      by_cases same : e.key = k
      · subst same
        have absent := consistent.absent kind v
        simp [absent, eq_comm]
      · rw [if_neg same, Option.getD_none, found]
        simp [Ne.symm same]

theorem Consistent.length_delete (consistent : e.Consistent entries) (distinct : Distinct entries)
    (deletes : e.isDelete = true) : (e.applyTo entries).length = entries.length - 1 := by
  obtain ⟨v, member⟩ := consistent.present deletes
  have length := length_filter_ne distinct member
  rw [applyTo, if_pos deletes]
  omega

theorem length_insert (inserts : e.isDelete = false) :
    (e.applyTo entries).length = entries.length + 1 := by
  simp [applyTo, inserts]

end LogEntry

end SetBench
