import SetBench.KeyVals

/-! Trimming the sorted array of a leaf to two optional bounds: the loops that a range query
runs from both ends. -/
namespace SetBench.KeyVals

open Radix

variable {K V : Type} [RadixKey K]

def InBounds (start stop : Option K) (k : K) : Prop := (∀ s ∈ start, s ≤ k) ∧ ∀ e ∈ stop, k ≤ e

def inBounds (start stop : Option K) (k : K) : Bool :=
  start.all (fun s => decide (s ≤ k)) && stop.all fun e => decide (k ≤ e)

theorem inBounds_iff (start stop : Option K) (k : K) :
    inBounds start stop k = true ↔ InBounds start stop k := by
  cases start <;> cases stop <;> simp [inBounds, InBounds]

/-! The loops without a test of the index. A read outside the array ends the list of reads:
nothing is known about what follows. -/

-- while (l->key_vals[s].key < *start) s++;
def startReads (start : K) : List (K × V) → Int → List Int
  | [], s => [s]
  | kv :: rest, s => s :: if kv.1 < start then startReads start rest (s + 1) else []

-- while (l->key_vals[e - 1].key > *end) e--; on the array from its end
def endReads (stop : K) : List (K × V) → Int → List Int
  | [], e => [e - 1]
  | kv :: rest, e => (e - 1) :: if stop < kv.1 then endReads stop rest (e - 1) else []

def trimReads (entries : List (K × V)) (start stop : Option K) : List Int :=
  start.elim [] (fun s => startReads s entries 0) ++ stop.elim [] fun e =>
    endReads e entries.reverse entries.length

theorem startReads_inside (start : K) (entries : List (K × V)) (s : Int) :
    (∀ i ∈ startReads start entries s, s ≤ i ∧ i < s + entries.length) ↔
    ∃ kv ∈ entries, start ≤ kv.1 := by
  induction entries generalizing s with
  | nil => simp [startReads]
  | cons kv rest ih =>
      have low : ∀ (list : List (K × V)) (t : Int), ∀ i ∈ startReads start list t, t ≤ i := by
        intro list
        induction list with
        | nil => simp [startReads]
        | cons first tail ih =>
            intro t i read
            rw [startReads, List.mem_cons] at read
            rcases read with rfl | later
            · exact le_rfl
            · split at later
              · have := ih (t + 1) i later
                omega
              · cases later
      rw [startReads, List.forall_mem_cons, List.exists_mem_cons_iff, List.length_cons]
      by_cases below : kv.1 < start
      · rw [if_pos below, ← ih (s + 1)]
        constructor
        · rintro ⟨_, reads⟩
          refine Or.inr fun i read => ⟨low rest (s + 1) i read, ?_⟩
          have := (reads i read).2
          push_cast at this
          omega
        · rintro (above | reads)
          · exact absurd above (not_le.mpr below)
          · refine ⟨by omega, fun i read => ?_⟩
            have := reads i read
            push_cast
            omega
      · rw [if_neg below]
        refine ⟨fun _ => Or.inl (not_lt.mp below), fun _ => ⟨by omega, by simp⟩⟩

theorem endReads_inside (stop : K) (entries : List (K × V)) (e : Int) :
    (∀ i ∈ endReads stop entries e, e - entries.length ≤ i ∧ i < e) ↔
    ∃ kv ∈ entries, kv.1 ≤ stop := by
  induction entries generalizing e with
  | nil => simp [endReads]
  | cons kv rest ih =>
      have high : ∀ (list : List (K × V)) (t : Int), ∀ i ∈ endReads stop list t, i < t := by
        intro list
        induction list with
        | nil => simp [endReads]
        | cons first tail ih =>
            intro t i read
            rw [endReads, List.mem_cons] at read
            rcases read with rfl | later
            · omega
            · split at later
              · have := ih (t - 1) i later
                omega
              · cases later
      rw [endReads, List.forall_mem_cons, List.exists_mem_cons_iff, List.length_cons]
      by_cases above : stop < kv.1
      · rw [if_pos above, ← ih (e - 1)]
        constructor
        · rintro ⟨_, reads⟩
          refine Or.inr fun i read => ⟨?_, high rest (e - 1) i read⟩
          have := (reads i read).1
          push_cast at this
          omega
        · rintro (below | reads)
          · exact absurd below (not_le.mpr above)
          · refine ⟨by omega, fun i read => ?_⟩
            have := reads i read
            push_cast
            omega
      · rw [if_neg above]
        refine ⟨fun _ => Or.inl (not_lt.mp above), fun _ => ⟨by omega, by simp⟩⟩

/-- Each loop stays inside exactly when some key stops it. -/
theorem trimReads_inside (entries : List (K × V)) (start stop : Option K) :
    (∀ i ∈ trimReads entries start stop, 0 ≤ i ∧ i < entries.length) ↔
      (∀ s ∈ start, ∃ kv ∈ entries, s ≤ kv.1) ∧ ∀ e ∈ stop, ∃ kv ∈ entries, kv.1 ≤ e := by
  have first (s : K) := startReads_inside s entries 0
  have second (e : K) := endReads_inside e entries.reverse entries.length
  simp only [zero_add] at first
  simp only [List.length_reverse, sub_self, List.mem_reverse] at second
  rw [trimReads, List.forall_mem_append]
  refine and_congr ?_ ?_
  · cases start with
    | none => simp
    | some s => simpa using first s
  · cases stop with
    | none => simp
    | some e => simpa using second e

/-! The guarded loops. -/

theorem mem_dropWhile_iff {α : Type} {test : α → Bool} {list : List α}
    (order : list.Pairwise fun one other => test other = true → test one = true) (x : α) :
    x ∈ list.dropWhile test ↔ x ∈ list ∧ test x = false := by
  induction list with
  | nil => simp
  | cons first rest ih =>
      obtain ⟨before, tail⟩ := List.pairwise_cons.mp order
      rw [List.dropWhile_cons]
      cases here : test first with
      | true =>
          rw [if_pos rfl, ih tail, List.mem_cons]
          constructor
          · exact fun ⟨member, stopped⟩ => ⟨Or.inr member, stopped⟩
          · rintro ⟨rfl | member, stopped⟩
            · rw [here] at stopped
              cases stopped
            · exact ⟨member, stopped⟩
      | false =>
          rw [if_neg Bool.false_ne_true]
          refine ⟨fun member => ⟨member, ?_⟩, And.left⟩
          rcases List.mem_cons.mp member with rfl | later
          · exact here
          · by_contra passed
            rw [before x later (by simpa using passed)] at here
            cases here

-- while (s < e && key_vals[s].key < *start) s++; while (e > s && key_vals[e - 1].key > *end) e--;
def trimmed (entries : List (K × V)) (start stop : Option K) : List (K × V) :=
  (entries.dropWhile fun kv => start.any fun s => decide (kv.1 < s)).rdropWhile fun kv =>
  stop.any fun e => decide (e < kv.1)

theorem trimmed_sublist (entries : List (K × V)) (start stop : Option K) :
    (trimmed entries start stop).Sublist entries := by
  rw [trimmed, List.rdropWhile]
  have back := (List.dropWhile_sublist (l :=
    (entries.dropWhile fun kv => start.any fun s => decide (kv.1 < s)).reverse)
    fun kv => stop.any fun e => decide (e < kv.1)).reverse
  rw [List.reverse_reverse] at back
  exact back.trans (List.dropWhile_sublist _)

theorem mem_trimmed {entries : List (K × V)} (sorted : Sorted entries) (start stop : Option K)
    (kv : K × V) :
    kv ∈ trimmed entries start stop ↔ kv ∈ entries ∧ InBounds start stop kv.1 := by
  have first : (entries.dropWhile fun kv => start.any fun s => decide (kv.1 < s)).Pairwise
    fun one other => one.1 < other.1 :=
    List.Pairwise.sublist (List.dropWhile_sublist _) sorted
  rw [trimmed, List.rdropWhile, List.mem_reverse, mem_dropWhile_iff, List.mem_reverse,
    mem_dropWhile_iff]
  · rw [and_assoc, InBounds]
    refine and_congr_right fun _ => and_congr ?_ ?_
    · cases start <;> simp
    · cases stop <;> simp
  · refine sorted.imp fun less => ?_
    cases start with
    | none => simp
    | some s => simpa using fun below => less.trans below
  · refine List.pairwise_reverse.mpr (first.imp fun less => ?_)
    cases stop with
    | none => simp
    | some e => simpa using fun above => above.trans less

end SetBench.KeyVals
