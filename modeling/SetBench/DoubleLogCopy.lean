import SetBench.LogEntry

/-! The arrays that the copying constructors of art_double_log_leaves.h build from a log
leaf whose two entries are in use: both entries and one more change are applied in one
pass. `base` is the array of the old leaf. -/
namespace SetBench.DoubleLog

open Radix KeyVals

variable {K V : Type} [RadixKey K]

-- One entry is a delete and the other an insert, of different keys.
def addMixed (base : List (K × V)) (deleted inserted : LogEntry K V) (key : K) (value : V) :
    List (K × V) :=
  if deleted.key = key then setValue (insert base inserted.key inserted.value) key value
  else merge [deleted.key] (ordered inserted.pair (key, value)) base

/-- CoW add kv pair to leaf, from a non-appendable log leaf. -/
def cowAdd (base : List (K × V)) (log secondLog : LogEntry K V) (key : K) (value : V) :
    List (K × V) :=
  if log.key = secondLog.key then
    if log.isDelete then setValue (insert base key value) log.key secondLog.value
    else insert base key value
  else
    match log.isDelete, secondLog.isDelete with
    | false, false => merge [] (sort [log.pair, secondLog.pair, (key, value)]) base
    | true, true =>
        if log.key = key then replaceValue (without [secondLog.key] base) key value
        else if secondLog.key = key then replaceValue (without [log.key] base) key value
        else merge [log.key, secondLog.key] [(key, value)] base
    | true, false => addMixed base log secondLog key value
    | false, true => addMixed base secondLog log key value

-- The branch of equal keys, and the one of two deletes, are the same in both removes.
def removeSame (base : List (K × V)) (log secondLog : LogEntry K V) (key : K) : List (K × V) :=
  if log.isDelete then
    if log.key = key then without [key] base
    else replaceValue (without [key] base) secondLog.key secondLog.value
  else without [key] base

def removeMixed (base : List (K × V)) (deleted inserted : LogEntry K V) (key : K) : List (K × V) :=
  if key ≠ deleted.key ∧ key ≠ inserted.key then merge [key, deleted.key] [inserted.pair] base
  else without [deleted.key] base

/-- CoW remove a key from log leaf. -/
def cowRemove (base : List (K × V)) (log secondLog : LogEntry K V) (key : K) : List (K × V) :=
  if log.key = secondLog.key then removeSame base log secondLog key
  else
    match log.isDelete, secondLog.isDelete with
    | false, false =>
        if key = log.key then merge [key] [secondLog.pair] base
        else if key = secondLog.key then merge [key] [log.pair] base
        else merge [key] (ordered log.pair secondLog.pair) base
    | true, true => without [key, log.key, secondLog.key] base
    | true, false => removeMixed base log secondLog key
    | false, true => removeMixed base secondLog log key

def removeMixedSmall (base : List (K × V)) (deleted inserted : LogEntry K V) (key : K) :
    List (K × V) :=
  if inserted.key = key then without [deleted.key] base
  else merge [key, deleted.key] [inserted.pair] base

/-- Remove kv from log leaf and create a new small leaf. -/
def cowRemoveSmall (base : List (K × V)) (log secondLog : LogEntry K V) (key : K) : List (K × V) :=
  if log.key = secondLog.key then removeSame base log secondLog key
  else
    match log.isDelete, secondLog.isDelete with
    | false, false =>
        if log.key = key then insert base secondLog.key secondLog.value
        else if secondLog.key = key then insert base log.key log.value
        else merge [key] (ordered log.pair secondLog.pair) base
    | true, true => without [log.key, secondLog.key, key] base
    | true, false => removeMixedSmall base log secondLog key
    | false, true => removeMixedSmall base secondLog log key

section Cow

variable {base : List (K × V)} {log secondLog deleted inserted : LogEntry K V} {key : K} {value : V}

/-- A log leaf with both entries in use. -/
structure Logged (base : List (K × V)) (log secondLog : LogEntry K V) : Prop where
  sorted : Sorted base
  first : log.Consistent base
  second : secondLog.Consistent (log.applyTo base)

/-- The array is sorted and has exactly these pairs. -/
def Lists (entries : List (K × V)) (P : K × V → Prop) : Prop :=
  Sorted entries ∧ ∀ entry, entry ∈ entries ↔ P entry

theorem Lists.of_iff {entries : List (K × V)} {P Q : K × V → Prop} (lists : Lists entries P)
    (same : ∀ k v, P (k, v) ↔ Q (k, v)) : Lists entries Q :=
  ⟨lists.1, fun entry => (lists.2 entry).trans (same entry.1 entry.2)⟩

theorem insert_lists (sorted : Sorted base) (absent : ∀ v, (key, v) ∉ base) (value : V) :
    Lists (insert base key value) fun entry => entry ∈ base ∨ entry = (key, value) :=
  ⟨insert_sorted sorted value absent, mem_insert base key value⟩

theorem without_lists (sorted : Sorted base) (skip : List K) :
    Lists (without skip base) fun entry => entry ∈ base ∧ entry.1 ∉ skip :=
  ⟨without_sorted sorted skip, mem_without⟩

theorem replace_lists (sorted : Sorted base) (key : K) (value : V) :
    Lists (replaceValue base key value) fun entry =>
      (entry ∈ base ∧ entry.1 ≠ key) ∨ (entry = (key, value) ∧ ∃ old, (key, old) ∈ base) :=
  ⟨replaceValue_sorted sorted key value, mem_replaceValue⟩

theorem merge_lists {pending : List (K × V)} (sorted : Sorted base) (skip : List K)
    (new : Sorted pending) (apart : ∀ kv ∈ pending, ∀ v, (kv.1, v) ∉ base) :
    Lists (merge skip pending base) fun entry => (entry ∈ base ∧ entry.1 ∉ skip) ∨
      entry ∈ pending :=
  ⟨merge_sorted sorted new fun kv member entry old _ same => apart kv member entry.2
    (by rw [← same]; exact old), mem_merge⟩

theorem addMixed_lists (sorted : Sorted base) (there : ∃ v, (deleted.key, v) ∈ base)
    (new : ∀ v, (inserted.key, v) ∉ base) (other : key ≠ inserted.key)
    (absent : key = deleted.key ∨ ∀ v, (key, v) ∉ base) :
    Lists (addMixed base deleted inserted key value) fun entry =>
      (entry ∈ base ∧ entry.1 ≠ deleted.key) ∨ entry = inserted.pair ∨ entry = (key, value) := by
  unfold addMixed
  split
  · rename_i same
    have whole := insert_lists sorted new inserted.value
    rw [setValue_eq whole.1]
    refine (replace_lists whole.1 key value).of_iff fun k v => ?_
    simp only [mem_insert, Prod.mk.injEq, LogEntry.pair]
    grind
  · rename_i apart
    refine (merge_lists sorted [deleted.key] (ordered_sorted (Ne.symm other)) ?_).of_iff
      fun k v => ?_
    · intro kv member v
      rcases (mem_ordered _ _ _).mp member with rfl | rfl
      · exact new v
      · exact absent.resolve_left (Ne.symm apart) v
    · simp only [mem_ordered, List.mem_singleton]

theorem cowAdd_lists (logged : Logged base log secondLog)
    (absent : ∀ v, (key, v) ∉ secondLog.applyTo (log.applyTo base)) (value : V) :
    Lists (cowAdd base log secondLog key value) fun entry =>
      entry ∈ secondLog.applyTo (log.applyTo base) ∨ entry = (key, value) := by
  obtain ⟨sorted, first, second⟩ := logged
  unfold cowAdd
  cases one : log.isDelete <;> cases two : secondLog.isDelete
  · -- Two inserts: three pairs are merged into the array.
    have new := first.absent one
    have new' := second.absent two
    simp only [LogEntry.mem_insert one, LogEntry.mem_insert two, LogEntry.pair,
      Prod.mk.injEq] at new' absent ⊢
    have apart : log.key ≠ secondLog.key := by grind
    rw [if_neg apart]
    refine (merge_lists sorted [] (sort_sorted ?_) ?_).of_iff fun k v => ?_
    · simp only [Distinct, List.pairwise_cons]
      grind
    · simp only [mem_sort]
      grind
    · simp only [mem_sort]
      grind
  · -- An insert and a delete.
    have new := first.absent one
    obtain ⟨old, there⟩ := second.present two
    simp only [LogEntry.mem_insert one, LogEntry.mem_delete two, LogEntry.pair,
      Prod.mk.injEq] at there absent ⊢
    split
    · rename_i same
      refine (insert_lists sorted ?_ value).of_iff fun k v => ?_
      · grind
      · grind
    · rename_i apart
      have other := absent log.value
      refine (addMixed_lists sorted (by grind) new (by grind) (by grind)).of_iff fun k v => ?_
      simp only [LogEntry.pair]
      grind
  · -- A delete and an insert.
    obtain ⟨old, there⟩ := first.present one
    have new := second.absent two
    simp only [LogEntry.mem_insert two, LogEntry.mem_delete one, LogEntry.pair,
      Prod.mk.injEq] at new absent ⊢
    split
    · rename_i same
      have whole : Lists (insert base key value) fun entry => entry ∈ base ∨ entry = (key, value) :=
        insert_lists sorted (by grind) value
      rw [setValue_eq whole.1]
      refine (replace_lists whole.1 _ _).of_iff fun k v => ?_
      simp only [mem_insert]
      grind
    · rename_i apart
      refine (addMixed_lists sorted ⟨old, there⟩ (by grind) (by grind) (by grind)).of_iff
        fun k v => ?_
      simp only [LogEntry.pair]
      grind
  · -- Two deletes.
    obtain ⟨old, there⟩ := first.present one
    obtain ⟨old', there'⟩ := second.present two
    simp only [LogEntry.mem_delete one, LogEntry.mem_delete two] at there' absent ⊢
    have apart : log.key ≠ secondLog.key := by grind
    rw [if_neg apart]
    split
    · refine (replace_lists (without_sorted sorted _) _ _).of_iff fun k v => ?_
      simp only [mem_without]
      grind
    · split
      · refine (replace_lists (without_sorted sorted _) _ _).of_iff fun k v => ?_
        simp only [mem_without]
        grind
      · refine (merge_lists sorted _ (List.pairwise_singleton _ _) ?_).of_iff fun k v => ?_
        · grind
        · grind

section Remove

variable (logged : Logged base log secondLog)
    (present : ∃ v, (key, v) ∈ secondLog.applyTo (log.applyTo base))
include logged present

theorem removeSame_lists (same : log.key = secondLog.key) :
    Lists (removeSame base log secondLog key) fun entry =>
    entry ∈ secondLog.applyTo (log.applyTo base) ∧ entry.1 ≠ key := by
  obtain ⟨sorted, first, second⟩ := logged
  obtain ⟨value, held⟩ := present
  unfold removeSame
  cases one : log.isDelete <;> cases two : secondLog.isDelete
  · have new' := second.absent two
    simp only [LogEntry.mem_insert one, LogEntry.pair, Prod.mk.injEq] at new'
    exact absurd (Or.inr ⟨same.symm, rfl⟩) (new' log.value)
  · have new := first.absent one
    simp only [LogEntry.mem_insert one, LogEntry.mem_delete two, LogEntry.pair,
      Prod.mk.injEq] at held ⊢
    refine (without_lists sorted [key]).of_iff fun k v => ?_
    grind
  · obtain ⟨old, there⟩ := first.present one
    simp only [LogEntry.mem_insert two, LogEntry.mem_delete one, LogEntry.pair,
      Prod.mk.injEq] at held ⊢
    rw [if_pos trivial]
    split
    · refine (without_lists sorted [key]).of_iff fun k v => ?_
      grind
    · refine (replace_lists (without_sorted sorted _) _ _).of_iff fun k v => ?_
      simp only [mem_without]
      grind
  · obtain ⟨old', there'⟩ := second.present two
    rw [LogEntry.mem_delete one] at there'
    exact absurd same.symm there'.2

omit logged present in
theorem removeMixed_lists (sorted : Sorted base) (new : ∀ v, (inserted.key, v) ∉ base)
    (other : key ≠ deleted.key) : Lists (removeMixed base deleted inserted key) fun entry =>
      ((entry ∈ base ∧ entry.1 ≠ deleted.key) ∨ entry = inserted.pair) ∧ entry.1 ≠ key := by
  unfold removeMixed
  split
  · rename_i apart
    refine (merge_lists sorted [key, deleted.key] (List.pairwise_singleton _ _) ?_).of_iff
      fun k v => ?_
    · intro kv member v
      rw [List.mem_singleton.mp member]
      exact new v
    · grind [LogEntry.pair]
  · rename_i logged
    refine (without_lists sorted [deleted.key]).of_iff fun k v => ?_
    grind [LogEntry.pair]

omit logged present in
-- A delete in the log hides its key, so the two versions of this branch agree.
theorem removeMixedSmall_eq (other : key ≠ deleted.key) :
    removeMixedSmall base deleted inserted key = removeMixed base deleted inserted key := by
  unfold removeMixedSmall removeMixed
  by_cases same : inserted.key = key
  · rw [if_pos same, if_neg fun both => both.2 same.symm]
  · rw [if_neg same, if_pos ⟨other, Ne.symm same⟩]

/-- Both removes leave the contents without `key`; `built` is the array of either. -/
theorem removed_lists {built : List (K × V)} (made : built = cowRemove base log secondLog key ∨
    built = cowRemoveSmall base log secondLog key) :
    Lists built fun entry => entry ∈ secondLog.applyTo (log.applyTo base) ∧ entry.1 ≠ key := by
  unfold cowRemove cowRemoveSmall at made
  by_cases same : log.key = secondLog.key
  · rw [if_pos same, if_pos same, or_self] at made
    rw [made]
    exact removeSame_lists logged present same
  rw [if_neg same, if_neg same] at made
  obtain ⟨sorted, first, second⟩ := logged
  obtain ⟨value, held⟩ := present
  cases one : log.isDelete <;> cases two : secondLog.isDelete <;> simp only [one, two] at made
  · -- Two inserts: the other one is merged, or both.
    have new := first.absent one
    have new' := second.absent two
    simp only [LogEntry.mem_insert one, LogEntry.mem_insert two, LogEntry.pair,
      Prod.mk.injEq] at new' held ⊢
    have lone (e : LogEntry K V) (absent : ∀ v, (e.key, v) ∉ base) (missing : ∀ v, (key, v) ∉ base)
        (array : built = merge [key] [e.pair] base ∨ built = insert base e.key e.value) :
        Lists built fun entry => entry ∈ base ∨ entry = e.pair := by
      rcases array with rfl | rfl
      · refine (merge_lists sorted [key] (List.pairwise_singleton _ _) ?_).of_iff fun k v => ?_
        · intro kv member v
          rw [List.mem_singleton.mp member]
          exact absent v
        · grind
      · exact insert_lists sorted absent e.value
    by_cases mine : key = log.key
    · rw [if_pos mine, if_pos mine.symm] at made
      refine (lone secondLog (by grind) (by grind) made).of_iff fun k v => ?_
      grind [LogEntry.pair]
    rw [if_neg mine, if_neg (Ne.symm mine)] at made
    by_cases yours : key = secondLog.key
    · rw [if_pos yours, if_pos yours.symm] at made
      refine (lone log new (by grind) made).of_iff fun k v => ?_
      grind [LogEntry.pair]
    · rw [if_neg yours, if_neg (Ne.symm yours), or_self] at made
      rw [made]
      refine (merge_lists sorted [key] (ordered_sorted same) ?_).of_iff fun k v => ?_
      · simp only [mem_ordered]
        grind [LogEntry.pair]
      · simp only [mem_ordered]
        grind [LogEntry.pair]
  · -- An insert and a delete.
    simp only [LogEntry.mem_insert one, LogEntry.mem_delete two] at held ⊢
    rw [removeMixedSmall_eq held.2, or_self] at made
    rw [made]
    refine (removeMixed_lists sorted (first.absent one) held.2).of_iff fun k v => ?_
    grind [LogEntry.pair]
  · -- A delete and an insert.
    have new := second.absent two
    simp only [LogEntry.mem_insert two, LogEntry.mem_delete one] at new held ⊢
    have other : key ≠ log.key := by grind [LogEntry.pair]
    rw [removeMixedSmall_eq other, or_self] at made
    rw [made]
    refine (removeMixed_lists sorted (by grind) other).of_iff fun k v => ?_
    grind
  · -- Two deletes.
    simp only [LogEntry.mem_delete one, LogEntry.mem_delete two] at held ⊢
    rcases made with rfl | rfl
    · refine (without_lists sorted _).of_iff fun k v => ?_
      grind
    · refine (without_lists sorted _).of_iff fun k v => ?_
      grind

end Remove

end Cow

end SetBench.DoubleLog
