import Mathlib
import SetBench.KeyVals

/-! Copying an array of pairs while leaving out some keys, adding some pairs or giving a
key a new value: the loops from which the constructors of log leaves are made. -/
namespace SetBench.KeyVals

open Radix

variable {K V : Type} [RadixKey K]

-- A copying loop with `if (in[i].key == ...) continue`.
def without (skip : List K) (entries : List (K × V)) : List (K × V) :=
  entries.filter fun kv => decide (kv.1 ∉ skip)

/-- The chain of copying loops around the pairs `pending`: each loop stops before the
first key that is not below the next pending pair. -/
def merge (skip : List K) : List (K × V) → List (K × V) → List (K × V)
  | [], entries => without skip entries
  | kv :: pending, entries =>
      without skip (entries.takeWhile fun entry => decide (entry.1 < kv.1)) ++
        kv :: merge skip pending (entries.dropWhile fun entry => decide (entry.1 < kv.1))

-- A loop with a `break` after the first match.
def setValue : List (K × V) → K → V → List (K × V)
  | [], _, _ => []
  | kv :: rest, key, value =>
      if kv.1 = key then (kv.1, value) :: rest else kv :: setValue rest key value

-- The same inside a copying loop, without the `break`.
def replaceValue (entries : List (K × V)) (key : K) (value : V) : List (K × V) :=
  entries.map fun kv => if kv.1 = key then (kv.1, value) else kv

def ordered (one other : K × V) : List (K × V) :=
  if one.1 < other.1 then [one, other] else [other, one]

-- std::sort by key
def sort (entries : List (K × V)) : List (K × V) :=
  entries.insertionSort fun one other => one.1 ≤ other.1

variable {entries pending : List (K × V)} {skip : List K} {key : K} {value : V}

theorem mem_without (entry : K × V) :
    entry ∈ without skip entries ↔ entry ∈ entries ∧ entry.1 ∉ skip := by
  simp [without, List.mem_filter]

theorem without_sorted (sorted : Sorted entries) (skip : List K) :
    Sorted (without skip entries) := sorted.filter _

theorem mem_merge (entry : K × V) :
    entry ∈ merge skip pending entries ↔ (entry ∈ entries ∧ entry.1 ∉ skip) ∨ entry ∈ pending := by
  induction pending generalizing entries with
  | nil => simp [merge, mem_without]
  | cons kv pending ih =>
      have whole := List.takeWhile_append_dropWhile (p := fun entry => decide (entry.1 < kv.1))
        (l := entries)
      rw [merge, List.mem_append, List.mem_cons, mem_without, ih, List.mem_cons]
      nth_rewrite 3 [← whole]
      rw [List.mem_append]
      tauto

-- The rest of the array after a loop is not below the key at which it stopped.
theorem le_of_mem_dropWhile {kv entry : K × V} (sorted : Sorted entries)
    (member : entry ∈ entries.dropWhile fun entry => decide (entry.1 < kv.1)) : kv.1 ≤ entry.1 := by
  induction entries with
  | nil => cases member
  | cons first rest ih =>
      obtain ⟨before, tail⟩ := List.pairwise_cons.mp sorted
      rw [List.dropWhile_cons] at member
      split at member
      · exact ih tail member
      · rename_i stop
        have above : kv.1 ≤ first.1 := by simpa using stop
        rcases List.mem_cons.mp member with rfl | later
        · exact above
        · exact above.trans (before entry later).le

theorem merge_sorted (sorted : Sorted entries) (new : Sorted pending)
    (apart : ∀ kv ∈ pending, ∀ entry ∈ entries, entry.1 ∉ skip → entry.1 ≠ kv.1) :
    Sorted (merge skip pending entries) := by
  induction pending generalizing entries with
  | nil => exact without_sorted sorted skip
  | cons kv pending ih =>
      obtain ⟨before, tail⟩ := List.pairwise_cons.mp new
      have kept := List.dropWhile_sublist (l := entries) fun entry : K × V =>
        decide (entry.1 < kv.1)
      have left : Sorted (entries.takeWhile fun entry => decide (entry.1 < kv.1)) :=
        List.Pairwise.sublist (List.takeWhile_sublist _) sorted
      have below {entry : K × V}
        (member : entry ∈ without skip (entries.takeWhile fun entry => decide (entry.1 < kv.1))) :
          entry.1 < kv.1 := by
        simpa using List.mem_takeWhile_imp ((mem_without entry).mp member).1
      have above {entry : K × V}
          (member : entry ∈ merge skip pending
            (entries.dropWhile fun entry => decide (entry.1 < kv.1))) :
          kv.1 < entry.1 := by
        rcases (mem_merge entry).mp member with ⟨old, kept_⟩ | next
        · exact lt_of_le_of_ne (le_of_mem_dropWhile sorted old)
            (apart kv (.head _) entry (kept.subset old) kept_).symm
        · exact before entry next
      refine List.pairwise_append.mpr ⟨without_sorted left skip,
        List.pairwise_cons.mpr ⟨fun entry => above, ?_⟩, ?_⟩
      · exact ih (List.Pairwise.sublist kept sorted) tail fun other member entry old =>
          apart other (.tail _ member) entry (kept.subset old)
      · intro one first other second
        rcases List.mem_cons.mp second with rfl | later
        · exact below first
        · exact (below first).trans (above later)

theorem length_merge (skip : List K) (pending entries : List (K × V)) :
    (merge skip pending entries).length = (without skip entries).length + pending.length := by
  induction pending generalizing entries with
  | nil => simp [merge]
  | cons kv pending ih =>
      have whole := List.takeWhile_append_dropWhile (p :=
        fun entry : K × V => decide (entry.1 < kv.1)) (l := entries)
      rw [merge, List.length_append, List.length_cons, ih, List.length_cons]
      nth_rewrite 3 [← whole]
      rw [without, without, without, List.filter_append, List.length_append]
      omega

theorem length_without {v : V} (sorted : Sorted entries) (member : (key, v) ∈ entries) :
    (without [key] entries).length + 1 = entries.length := by
  rw [← length_filter_ne sorted.distinct member]
  simp [without]

theorem mem_replaceValue (entry : K × V) : entry ∈ replaceValue entries key value ↔
    (entry ∈ entries ∧ entry.1 ≠ key) ∨ (entry = (key, value) ∧ ∃ old, (key, old) ∈ entries) := by
  rw [replaceValue, List.mem_map]
  constructor
  · rintro ⟨kv, member, rfl⟩
    by_cases same : kv.1 = key
    · rw [if_pos same]
      exact Or.inr ⟨by rw [same], kv.2, by rw [← same]; exact member⟩
    · rw [if_neg same]
      exact Or.inl ⟨member, same⟩
  · rintro (⟨member, other⟩ | ⟨rfl, old, member⟩)
    · exact ⟨entry, member, if_neg other⟩
    · exact ⟨(key, old), member, if_pos rfl⟩

theorem replaceValue_sorted (sorted : Sorted entries) (key : K) (value : V) :
    Sorted (replaceValue entries key value) := by
  refine List.pairwise_map.mpr (sorted.imp fun {one other} less => ?_)
  split <;> split <;> exact less

-- A key occurs once in a sorted array, so the `break` makes no difference.
theorem setValue_eq (sorted : Sorted entries) (key : K) (value : V) :
    setValue entries key value = replaceValue entries key value := by
  induction entries with
  | nil => rfl
  | cons kv rest ih =>
      obtain ⟨before, tail⟩ := List.pairwise_cons.mp sorted
      rw [setValue, replaceValue, List.map_cons]
      by_cases same : kv.1 = key
      · rw [if_pos same, if_pos same]
        have others : rest.map (fun kv => if kv.1 = key then (kv.1, value) else kv) = rest.map id :=
          List.map_congr_left fun other member =>
            if_neg (by rw [← same]; exact (before other member).ne')
        rw [others, List.map_id]
      · rw [if_neg same, if_neg same, ih tail]
        rfl

theorem mem_ordered (one other entry : K × V) :
    entry ∈ ordered one other ↔ entry = one ∨ entry = other := by
  unfold ordered
  split
  · simp
  · simp [or_comm]

theorem ordered_sorted {one other : K × V} (apart : one.1 ≠ other.1) :
    Sorted (ordered one other) := by
  unfold ordered
  split
  · rename_i less
    simpa [Sorted] using less
  · rename_i more
    simpa [Sorted] using lt_of_le_of_ne (not_lt.mp more) apart.symm

theorem mem_sort (entry : K × V) : entry ∈ sort entries ↔ entry ∈ entries :=
  List.mem_insertionSort _

theorem length_sort (entries : List (K × V)) : (sort entries).length = entries.length :=
  List.length_insertionSort _ _

theorem sort_sorted (distinct : Distinct entries) : Sorted (sort entries) := by
  have : Std.Total fun one other : K × V => one.1 ≤ other.1 :=
    ⟨fun one other => le_total one.1 other.1⟩
  have : IsTrans (K × V) fun one other => one.1 ≤ other.1 :=
    ⟨fun _ _ _ first second => le_trans first second⟩
  have order := List.pairwise_insertionSort (fun one other : K × V => one.1 ≤ other.1) entries
  have apart : Distinct (sort entries) :=
    (List.perm_insertionSort _ entries).symm.pairwise distinct fun differ => differ.symm
  exact (order.and apart).imp fun both => lt_of_le_of_ne both.1 both.2

end SetBench.KeyVals
