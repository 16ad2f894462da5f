import SetBench.DoubleLogLeaf

/-! The three constructors that reconcile a log leaf with its two entries: each branch
fills the array and sets the size by hand. Both are compared with the map of the leaf. -/
namespace SetBench

open Radix KeyVals

namespace LogEntry

variable {K V : Type} [RadixKey K]

/-- The map after the entry. -/
def update (e : LogEntry K V) (map : K → Option V) : K → Option V :=
  Function.update map e.key (if e.isDelete then none else some e.value)

theorem update_eq (e : LogEntry K V) (map : K → Option V) (k : K) :
    e.update map k = (e.answer k).getD (map k) := by
  unfold update answer
  by_cases same : k = e.key
  · rw [same, Function.update_self, if_pos rfl, Option.getD_some]
  · rw [Function.update_of_ne same, if_neg (Ne.symm same), Option.getD_none]

end LogEntry

namespace DoubleLog

variable {K V : Type} [RadixKey K]

-- header::size of the CoW add.
def cowAddSize (size : Int) (log secondLog : LogEntry K V) : Int :=
  if log.key = secondLog.key then size + 1
  else
    match log.isDelete, secondLog.isDelete with
    | false, false => size + 3
    | true, true => size - 1
    | true, false | false, true => size + 1

-- header::size of the CoW remove into a log leaf.
def cowRemoveSize (size : Int) (log secondLog : LogEntry K V) (key : K) : Int :=
  if log.key = secondLog.key then size - 1
  else
    match log.isDelete, secondLog.isDelete with
    | false, false => if key = log.key ∨ key = secondLog.key then size + 1 else size + 2 - 1
    | true, true => size - 3
    | true, false | false, true =>
        if key ≠ log.key ∧ key ≠ secondLog.key then size + 1 - 2 else size - 1

-- header::size of the remove into a small leaf; two branches count what they wrote.
def cowRemoveSmallSize (base : List (K × V)) (log secondLog : LogEntry K V) (key : K) : Int :=
  if log.key = secondLog.key then base.length - 1
  else
    match log.isDelete, secondLog.isDelete with
    | false, false => base.length + 1
    | true, true | true, false | false, true => (cowRemoveSmall base log secondLog key).length

/-- Strictly sorted, and exactly the pairs of the map. -/
def Spells (entries : List (K × V)) (map : K → Option V) : Prop :=
  Lists entries fun entry => map entry.1 = some entry.2

noncomputable def count (map : K → Option V) : Nat := { k | map k ≠ none }.ncard

theorem count_eq {entries : List (K × V)} {map : K → Option V} (distinct : Distinct entries)
    (same : ∀ k v, (k, v) ∈ entries ↔ map k = some v) : count map = entries.length := by
  have keys : (entries.map Prod.fst).Nodup := List.pairwise_map.mpr distinct
  have members : { k | map k ≠ none } = ((entries.map Prod.fst).toFinset : Set K) := by
    ext k
    simp only [Set.mem_ofPred_eq, List.coe_toFinset, List.mem_map, Option.ne_none_iff_exists']
    constructor
    · rintro ⟨v, held⟩
      exact ⟨(k, v), (same k v).mpr held, rfl⟩
    · rintro ⟨entry, member, rfl⟩
      exact ⟨entry.2, (same entry.1 entry.2).mp member⟩
  rw [count, members, Set.ncard_coe_finset, List.toFinset_card_of_nodup keys, List.length_map]

theorem Spells.length {entries : List (K × V)} {map : K → Option V} (spells : Spells entries map) :
    count map = entries.length :=
  count_eq spells.1.distinct fun k v => spells.2 (k, v)

theorem count_insert {map : K → Option V} (finite : { k | map k ≠ none }.Finite) {key : K}
    (missing : map key = none) (value : V) :
    count (Function.update map key (some value)) = count map + 1 := by
  have members : { k | Function.update map key (some value) k ≠ none } = Insert.insert key
    { k | map k ≠ none } := by
    ext k
    by_cases same : k = key <;> simp [same]
  rw [count, members, Set.ncard_insert_of_notMem (by simpa using missing) finite, count]

theorem count_remove {map : K → Option V} (finite : { k | map k ≠ none }.Finite) {key : K}
    (present : map key ≠ none) :
    count (Function.update map key none) + 1 = count map := by
  have members : { k | Function.update map key none k ≠ none } = { k | map k ≠ none } \ {key} := by
    ext k
    by_cases same : k = key <;> simp [same]
  rw [count, members, Set.ncard_sdiff_singleton_add_one present finite, count]

section Effective

variable {base : List (K × V)} {log secondLog : LogEntry K V} {key : K}

/-- The base map with the entries applied in order. -/
def effective (base : List (K × V)) (log secondLog : LogEntry K V) : K → Option V :=
  secondLog.update (log.update (KeyVals.find base))

variable (logged : Logged base log secondLog)
include logged

theorem Logged.first_distinct : Distinct (log.applyTo base) :=
  logged.first.distinct logged.sorted.distinct

theorem Logged.distinct : Distinct (secondLog.applyTo (log.applyTo base)) :=
  logged.second.distinct logged.first_distinct

theorem Logged.mem_iff (k : K) (v : V) :
    (k, v) ∈ secondLog.applyTo (log.applyTo base) ↔ effective base log secondLog k = some v := by
  have first := logged.first.find_iff (find_some_iff logged.sorted k v)
  rw [← logged.second.find_iff first, effective, LogEntry.update_eq, LogEntry.update_eq]

theorem Logged.count_eq :
    count (effective base log secondLog) = (secondLog.applyTo (log.applyTo base)).length :=
  DoubleLog.count_eq logged.distinct logged.mem_iff

theorem Logged.finite : { k | effective base log secondLog k ≠ none }.Finite := by
  refine (List.finite_toSet ((secondLog.applyTo (log.applyTo base)).map Prod.fst)).subset
    fun k present => ?_
  obtain ⟨v, held⟩ := Option.ne_none_iff_exists'.mp present
  exact List.mem_map.mpr ⟨(k, v), (logged.mem_iff k v).mpr held, rfl⟩

theorem Logged.absent {k : K} (missing : effective base log secondLog k = none) (v : V) :
    (k, v) ∉ secondLog.applyTo (log.applyTo base) := by
  rw [logged.mem_iff, missing]
  simp

theorem Logged.there {k : K} (present : effective base log secondLog k ≠ none) :
    ∃ v, (k, v) ∈ secondLog.applyTo (log.applyTo base) := by
  obtain ⟨v, held⟩ := Option.ne_none_iff_exists'.mp present
  exact ⟨v, (logged.mem_iff k v).mpr held⟩

-- One entry adds a pair or takes one away.
theorem Logged.count_cases : (count (effective base log secondLog) : Int) =
    base.length + (if log.isDelete then -1 else 1) + (if secondLog.isDelete then -1 else 1) := by
  have one {entries : List (K × V)} {e : LogEntry K V} (consistent : e.Consistent entries)
    (distinct : Distinct entries) :
      ((e.applyTo entries).length : Int) = entries.length + if e.isDelete then -1 else 1 := by
    cases kind : e.isDelete with
    | true =>
        obtain ⟨v, member⟩ := consistent.present kind
        have nonempty := List.length_pos_of_mem member
        rw [consistent.length_delete distinct kind, if_pos rfl]
        omega
    | false =>
        rw [LogEntry.length_insert kind, if_neg Bool.false_ne_true]
        rfl
  rw [logged.count_eq, one logged.second logged.first_distinct,
    one logged.first logged.sorted.distinct]

theorem Logged.kinds_differ (same : log.key = secondLog.key) :
    log.isDelete ≠ secondLog.isDelete := by
  intro kinds
  cases kind : log.isDelete with
  | true =>
      obtain ⟨v, member⟩ := logged.second.present (kinds ▸ kind)
      rw [LogEntry.mem_delete kind] at member
      exact member.2 same.symm
  | false =>
      refine logged.second.absent (kinds ▸ kind) log.value ?_
      rw [LogEntry.mem_insert kind, LogEntry.pair, same]
      exact Or.inr rfl

theorem cowAdd_spells (missing : effective base log secondLog key = none) (value : V) :
    Spells (cowAdd base log secondLog key value)
      (Function.update (effective base log secondLog) key (some value)) := by
  refine (cowAdd_lists logged (logged.absent missing) value).of_iff fun k v => ?_
  rw [logged.mem_iff, Prod.mk.injEq, Function.update_apply]
  by_cases same : k = key
  · simp [same, missing, eq_comm]
  · simp [same]

theorem removed_spells (present : effective base log secondLog key ≠ none) {built : List (K × V)}
    (made : built = cowRemove base log secondLog key ∨ built = cowRemoveSmall base log
      secondLog key) :
    Spells built (Function.update (effective base log secondLog) key none) := by
  refine (removed_lists logged (logged.there present) made).of_iff fun k v => ?_
  rw [logged.mem_iff, Function.update_apply]
  by_cases same : k = key
  · simp [same]
  · simp [same]

theorem cowAddSize_eq :
    cowAddSize base.length log secondLog = count (effective base log secondLog) + 1 := by
  have kinds := logged.kinds_differ
  rw [logged.count_cases]
  unfold cowAddSize
  cases one : log.isDelete <;> cases two : secondLog.isDelete <;> by_cases same :
    log.key = secondLog.key <;>
    simp_all <;> omega

theorem cowRemoveSize_eq (key : K) :
    cowRemoveSize base.length log secondLog key = count (effective base log secondLog) - 1 := by
  have kinds := logged.kinds_differ
  rw [logged.count_cases]
  unfold cowRemoveSize
  cases one : log.isDelete <;> cases two : secondLog.isDelete <;> by_cases same :
    log.key = secondLog.key <;>
    simp_all <;> try split
  all_goals omega

theorem cowRemoveSmallSize_eq (present : effective base log secondLog key ≠ none) :
    cowRemoveSmallSize base log secondLog key = count (effective base log secondLog) - 1 := by
  have written : ((cowRemoveSmall base log secondLog key).length : Int) =
    count (effective base log secondLog) - 1 := by
    have length := (removed_spells logged present (Or.inr rfl)).length
    have fewer := count_remove logged.finite present
    omega
  have kinds := logged.kinds_differ
  rw [logged.count_cases] at written ⊢
  unfold cowRemoveSmallSize
  cases one : log.isDelete <;> cases two : secondLog.isDelete <;> by_cases same :
    log.key = secondLog.key <;> simp_all

end Effective

/-- Find, the real size and the three constructors of a log leaf whose two entries are in
use all follow the map of the leaf. -/
theorem reconciliation_exact {l : Leaf K V} {log secondLog : LogEntry K V} (kind : l.isLog = true)
    (one : l.log = some log) (two : l.secondLog = some secondLog)
    (logged : Logged l.keyVals log secondLog) :
    (∀ k, l.find k = effective l.keyVals log secondLog k) ∧
    l.realSize = count (effective l.keyVals log secondLog) ∧
    (∀ k v, effective l.keyVals log secondLog k = none →
      count (effective l.keyVals log secondLog) < maxBigLeafSize →
      Spells (cowAdd l.keyVals log secondLog k v)
        (Function.update (effective l.keyVals log secondLog) k (some v)) ∧
      cowAddSize l.size log secondLog = count (effective l.keyVals log secondLog) + 1 ∧
      cowAddSize l.size log secondLog = (cowAdd l.keyVals log secondLog k v).length) ∧
    (∀ k, effective l.keyVals log secondLog k ≠ none →
      3 ≤ count (effective l.keyVals log secondLog) - 1 →
      count (effective l.keyVals log secondLog) - 1 ≤ 13 →
      Spells (cowRemove l.keyVals log secondLog k)
        (Function.update (effective l.keyVals log secondLog) k none) ∧
      cowRemoveSize l.size log secondLog k = count (effective l.keyVals log secondLog) - 1 ∧
      cowRemoveSize l.size log secondLog k = (cowRemove l.keyVals log secondLog k).length) ∧
    (∀ k, effective l.keyVals log secondLog k ≠ none →
      1 ≤ count (effective l.keyVals log secondLog) - 1 →
      count (effective l.keyVals log secondLog) - 1 ≤ 2 →
      Spells (cowRemoveSmall l.keyVals log secondLog k)
        (Function.update (effective l.keyVals log secondLog) k none) ∧
      cowRemoveSmallSize l.keyVals log secondLog k = count (effective l.keyVals log secondLog) - 1 ∧
      cowRemoveSmallSize l.keyVals log secondLog k =
        (cowRemoveSmall l.keyVals log secondLog k).length) := by
  have finite := logged.finite
  refine ⟨fun k => ?_, ?_, fun k v missing _ => ?_, fun k present _ _ => ?_,
    fun k present _ _ => ?_⟩
  · simp only [Leaf.find, kind, one, two, if_true, Option.bind_some, effective, LogEntry.update_eq]
    cases secondLog.answer k <;> rfl
  · have total := logged.count_cases
    have nonempty : log.isDelete = true → 0 < l.keyVals.length := by
      intro deletes
      obtain ⟨v, member⟩ := logged.first.present deletes
      exact List.length_pos_of_mem member
    simp only [Leaf.realSize, Leaf.sizeAfter, one, two, Leaf.size]
    split_ifs at total ⊢ <;> simp_all <;> omega
  · have spells := cowAdd_spells logged missing v
    have size := cowAddSize_eq logged
    have length := spells.length
    rw [count_insert finite missing] at length
    refine ⟨spells, size, ?_⟩
    rw [Leaf.size, size, ← length]
    rfl
  · have spells := removed_spells logged present (Or.inl rfl)
    have size := cowRemoveSize_eq logged k
    have length := spells.length
    have fewer := count_remove finite present
    refine ⟨spells, size, ?_⟩
    rw [Leaf.size, size]
    omega
  · have spells := removed_spells logged present (Or.inr rfl)
    have size := cowRemoveSmallSize_eq logged present
    have length := spells.length
    have fewer := count_remove finite present
    refine ⟨spells, size, ?_⟩
    rw [size]
    omega

-- The pair of 1 is deleted and inserted again with another value.
def reinserted : Leaf Key Nat :=
  ⟨true, 1, 8, [(1, 10), (2, 20), (3, 30)], some ⟨true, 1, 0⟩, some ⟨false, 1, 11⟩⟩

theorem reinserted_found : reinserted.find 1 = some 11 ∧
    Spells (cowRemoveSmall reinserted.keyVals ⟨true, 1, 0⟩ ⟨false, 1, 11⟩ 3)
      (Function.update (effective reinserted.keyVals ⟨true, 1, 0⟩ ⟨false, 1, 11⟩) 3 none) := by
  have logged : Logged reinserted.keyVals ⟨true, 1, 0⟩ ⟨false, 1, 11⟩ := by
    refine ⟨by unfold Sorted; decide, ⟨fun _ => ⟨10, by decide⟩, fun _ => rfl⟩, nofun, ?_⟩
    rintro ⟨v, member⟩
    exact absurd rfl ((LogEntry.mem_delete rfl _).mp member).2
  obtain ⟨find, size, _, _, small⟩ := reconciliation_exact (l := reinserted) rfl rfl rfl logged
  have three : reinserted.realSize = 3 := rfl
  rw [three] at size
  exact ⟨(find 1).trans rfl, (small 3 (by decide) (by omega) (by omega)).1⟩

end DoubleLog

end SetBench
