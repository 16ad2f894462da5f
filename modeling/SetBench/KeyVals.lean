import SetBench.RadixKey

/-! The arrays of key/value pairs in leaves: search, insertion, the first differing
byte, and the division of a full leaf by one byte. All variants of the tree share them. -/
namespace SetBench.KeyVals

open Radix

variable {K V : Type} [RadixKey K]

-- The integer branch of generic_leaf::find.
def find : List (K × V) → K → Option V
  | [], _ => none
  | kv :: rest, k => if kv.1 < k then find rest k else if k < kv.1 then none else some kv.2

def insert : List (K × V) → K → V → List (K × V)
  | [], key, value => [(key, value)]
  | kv :: rest, key, value =>
      if kv.1 < key then kv :: insert rest key value else (key, value) :: kv :: rest

-- The while loop of first_diff; it stops at the length of the keys at the latest.
def firstDiffLoop (start : K × V) (rest : List (K × V)) : Nat → Nat → Nat
  | 0, j => j
  | fuel + 1, j =>
      if rest.any fun kv => decide (RadixKey.size K ≤ j) || RadixKey.byte kv.1 j != RadixKey.byte
        start.1 j then j
      else firstDiffLoop start rest fuel (j + 1)

def firstDiff (bytePos : Nat) (start : K × V) (rest : List (K × V)) : Nat :=
  if rest.length = 0 then RadixKey.size K
  else firstDiffLoop start rest (RadixKey.size K - bytePos) bytePos

/-- The division of an array by the byte at `bytePos`, as runs of equal bytes; a run is
its first pair and the others. -/
def splitLoop (bytePos : Nat) (start : K × V) (run : List (K × V)) :
    List (K × V) → List ((K × V) × List (K × V))
  | [] => [(start, run)]
  | kv :: rest =>
      if RadixKey.byte kv.1 bytePos ≠ RadixKey.byte start.1 bytePos then
        (start, run) :: splitLoop bytePos kv [] rest
      else splitLoop bytePos start (run ++ [kv]) rest

/-- Strictly increasing keys. -/
def Sorted (entries : List (K × V)) : Prop := entries.Pairwise fun one other => one.1 < other.1

/-- No key twice, in any order. -/
def Distinct (entries : List (K × V)) : Prop := entries.Pairwise fun one other => one.1 ≠ other.1

/-- The keys agree below `place` and do not all agree at it. -/
structure DifferAt (entries : List (K × V)) (place : Nat) : Prop where
  agree : ∀ one ∈ entries, ∀ other ∈ entries, Agree one.1 other.1 place
  differ : ∃ one ∈ entries, ∃ other ∈ entries, RadixKey.byte one.1 place ≠ RadixKey.byte other.1
    place

-- Some pair differs from the first one.
theorem DifferAt.apart {start : K × V} {rest : List (K × V)} {place : Nat}
    (differ : DifferAt (start :: rest) place) :
    ∃ kv ∈ rest, RadixKey.byte kv.1 place ≠ RadixKey.byte start.1 place := by
  obtain ⟨one, first, other, second, differs⟩ := differ.differ
  by_contra all
  push Not at all
  have same : ∀ kv ∈ start :: rest, RadixKey.byte kv.1 place = RadixKey.byte start.1 place := by
    intro kv member
    rcases List.mem_cons.mp member with rfl | later
    · rfl
    · exact all kv later
  exact differs ((same one first).trans (same other second).symm)

theorem DifferAt.lt_size {entries : List (K × V)} {place : Nat} (differ : DifferAt entries place) :
    place < RadixKey.size K := by
  obtain ⟨one, first, other, second, differs⟩ := differ.differ
  exact Parts.lt_size ⟨differ.agree one first other second, differs⟩

theorem Sorted.distinct {entries : List (K × V)} (sorted : Sorted entries) : Distinct entries :=
  sorted.imp fun less => less.ne

omit [RadixKey K] in
-- Arrays without repeated keys that hold the same pairs have one length.
theorem Distinct.length_eq {entries others : List (K × V)} (distinct : Distinct entries)
    (distinct' : Distinct others) (same : ∀ entry, entry ∈ entries ↔ entry ∈ others) :
    entries.length = others.length := by
  have nodup {list : List (K × V)} (apart : Distinct list) : list.Nodup :=
    apart.imp fun differ equal => differ (by rw [equal])
  exact ((List.perm_ext_iff_of_nodup (nodup distinct) (nodup distinct')).mpr same).length_eq

theorem length_filter_ne {entries : List (K × V)} (distinct : Distinct entries) {k : K} {v : V}
    (member : (k, v) ∈ entries) :
    (entries.filter fun kv => kv.1 ≠ k).length + 1 = entries.length := by
  induction entries with
  | nil => cases member
  | cons kv rest ih =>
      obtain ⟨apart, tail⟩ := List.pairwise_cons.mp distinct
      rcases List.mem_cons.mp member with rfl | later
      · have others : rest.filter (fun kv => kv.1 ≠ k) = rest :=
          List.filter_eq_self.mpr fun kv held => by simpa using (apart kv held).symm
        rw [List.filter_cons, if_neg (by simp), others, List.length_cons]
      · have different : kv.1 ≠ k := apart _ later
        simp only [List.filter_cons, different, ne_eq, not_false_eq_true, decide_true, if_true,
          List.length_cons]
        rw [ih tail later]

theorem find_some_iff {entries : List (K × V)} (sorted : Sorted entries) (k : K) (v : V) :
    find entries k = some v ↔ (k, v) ∈ entries := by
  induction entries with
  | nil => simp [find]
  | cons kv rest ih =>
      obtain ⟨before, tail⟩ := List.pairwise_cons.mp sorted
      rw [find]
      by_cases less : kv.1 < k
      · rw [if_pos less, ih tail, List.mem_cons]
        have other : (k, v) ≠ kv := by
          rintro rfl
          exact lt_irrefl _ less
        simp [other]
      · rw [if_neg less]
        have absent (above : k ≤ kv.1) : (k, v) ∉ rest := fun member =>
          absurd (before _ member) (not_lt.mpr above)
        rcases lt_trichotomy k kv.1 with below | same | above
        · have other : (k, v) ≠ kv := by
            rintro rfl
            exact lt_irrefl _ below
          simp [if_pos below, List.mem_cons, other, absent below.le]
        · obtain ⟨key, value⟩ := kv
          cases same
          simp [List.mem_cons, absent le_rfl, eq_comm]
        · exact absurd above less

theorem find_none_iff {entries : List (K × V)} (sorted : Sorted entries) (k : K) :
    find entries k = none ↔ ∀ v, (k, v) ∉ entries := by
  constructor
  · intro missing v member
    rw [(find_some_iff sorted k v).mpr member] at missing
    cases missing
  · intro absent
    cases found : find entries k with
    | none => rfl
    | some v => exact absurd ((find_some_iff sorted k v).mp found) (absent v)

theorem mem_insert (entries : List (K × V)) (key : K) (value : V) (entry : K × V) :
    entry ∈ insert entries key value ↔ entry ∈ entries ∨ entry = (key, value) := by
  induction entries with
  | nil => simp [insert]
  | cons kv rest ih =>
      rw [insert]
      split
      · rw [List.mem_cons, ih, List.mem_cons, or_assoc]
      · simp only [List.mem_cons]
        tauto

theorem length_insert (entries : List (K × V)) (key : K) (value : V) :
    (insert entries key value).length = entries.length + 1 := by
  induction entries with
  | nil => rfl
  | cons kv rest ih =>
      rw [insert]
      split
      · rw [List.length_cons, ih, List.length_cons]
      · rfl

theorem insert_sorted {entries : List (K × V)} (sorted : Sorted entries) {key : K} (value : V)
    (absent : ∀ v, (key, v) ∉ entries) : Sorted (insert entries key value) := by
  induction entries with
  | nil => exact List.pairwise_singleton _ _
  | cons kv rest ih =>
      obtain ⟨before, tail⟩ := List.pairwise_cons.mp sorted
      rw [insert]
      split
      · rename_i less
        refine List.pairwise_cons.mpr ⟨fun entry member => ?_,
          ih tail fun v held => absent v (.tail _ held)⟩
        rcases (mem_insert _ _ _ _).mp member with old | rfl
        · exact before entry old
        · exact less
      · rename_i above
        have different : key ≠ kv.1 :=
          fun same => absent kv.2 (by rw [same]; exact List.mem_cons_self)
        have less : key < kv.1 := lt_of_le_of_ne (not_lt.mp above) different
        refine List.pairwise_cons.mpr ⟨fun entry member => ?_, sorted⟩
        rcases List.mem_cons.mp member with rfl | later
        · exact less
        · exact less.trans (before entry later)

/-! The first differing byte. -/

theorem le_firstDiffLoop (start : K × V) (rest : List (K × V)) (fuel j : Nat) :
    j ≤ firstDiffLoop start rest fuel j := by
  induction fuel generalizing j with
  | zero => exact Nat.le_refl _
  | succ fuel ih =>
      rw [firstDiffLoop]
      split
      · exact Nat.le_refl _
      · exact Nat.le_of_succ_le (ih (j + 1))

theorem firstDiffLoop_spec {start : K × V} {rest : List (K × V)} (nonempty : rest.length ≠ 0)
    (distinct : ∀ kv ∈ rest, kv.1 ≠ start.1) (fuel j : Nat) (enough : RadixKey.size K ≤ fuel + j)
    (agree : ∀ kv ∈ rest, Agree kv.1 start.1 j) :
    (∀ kv ∈ rest, Agree kv.1 start.1 (firstDiffLoop start rest fuel j)) ∧
    ∃ kv ∈ rest, RadixKey.byte kv.1 (firstDiffLoop start rest fuel j) ≠
      RadixKey.byte start.1 (firstDiffLoop start rest fuel j) := by
  obtain ⟨first, member⟩ := List.exists_mem_of_ne_nil rest fun empty =>
    nonempty (by rw [empty]; rfl)
  -- Distinct keys part before their end, so the loop has not run to it.
  have short : j < RadixKey.size K := by
    obtain ⟨place, below, parts⟩ := exists_parts (distinct first member)
    by_contra long
    exact parts.2 (agree first member place (by omega))
  induction fuel generalizing j with
  | zero => omega
  | succ fuel ih =>
      rw [firstDiffLoop]
      split
      · rename_i stopped
        obtain ⟨kv, inside, differs⟩ := List.any_eq_true.mp stopped
        refine ⟨agree, kv, inside, ?_⟩
        simp only [Bool.or_eq_true, decide_eq_true_eq, bne_iff_ne] at differs
        rcases differs with late | differs
        · omega
        · exact differs
      · rename_i going
        have same : ∀ kv ∈ rest, RadixKey.byte kv.1 j = RadixKey.byte start.1 j := by
          intro kv inside
          by_contra differs
          exact going (List.any_eq_true.mpr ⟨kv, inside, by simp [differs]⟩)
        have longer : ∀ kv ∈ rest, Agree kv.1 start.1 (j + 1) := fun kv inside =>
          (agree kv inside).succ (same kv inside)
        have short' : j + 1 < RadixKey.size K := by
          obtain ⟨place, below, parts⟩ := exists_parts (distinct first member)
          by_contra long
          exact parts.2 (longer first member place (by omega))
        exact ih (j + 1) (by omega) longer short'

-- The search starts at `bytePos`, whatever the keys are.
theorem firstDiff_deep {pos bytePos : Nat} (start : K × V) (rest : List (K × V))
    (below : pos < bytePos) (inside : pos < RadixKey.size K) :
    pos < firstDiff bytePos start rest := by
  unfold firstDiff
  split
  · exact inside
  · exact below.trans_le (le_firstDiffLoop start rest _ bytePos)

theorem firstDiff_differ {bytePos : Nat} {start : K × V} {rest : List (K × V)}
    (nonempty : rest.length ≠ 0) (sorted : Sorted (start :: rest))
    (agree : ∀ kv ∈ rest, Agree kv.1 start.1 bytePos) :
    DifferAt (start :: rest) (firstDiff bytePos start rest) ∧ bytePos ≤ firstDiff bytePos start
      rest := by
  obtain ⟨before, _⟩ := List.pairwise_cons.mp sorted
  have distinct : ∀ kv ∈ rest, kv.1 ≠ start.1 := fun kv member => (before kv member).ne'
  rw [firstDiff, if_neg nonempty]
  obtain ⟨same, kv, member, differs⟩ :=
    firstDiffLoop_spec nonempty distinct (RadixKey.size K - bytePos) bytePos (by omega) agree
  have all : ∀ one ∈ start :: rest, Agree one.1 start.1 _ := fun one held => by
    rcases List.mem_cons.mp held with rfl | later
    · exact Agree.refl _ _
    · exact same one later
  exact ⟨⟨fun one first other second => (all one first).trans (all other second).symm,
    kv, .tail _ member, start, .head _, differs⟩, le_firstDiffLoop start rest _ bytePos⟩

/-! The division into runs. -/

section Split

variable {bytePos : Nat} {start : K × V} {run rest : List (K × V)}

def whole (group : (K × V) × List (K × V)) : List (K × V) := group.1 :: group.2

theorem splitLoop_flatten (bytePos : Nat) (start : K × V) (run rest : List (K × V)) :
    ((splitLoop bytePos start run rest).map whole).flatten = start :: (run ++ rest) := by
  induction rest generalizing start run with
  | nil => simp [splitLoop, whole]
  | cons kv rest ih =>
      rw [splitLoop]
      split
      · rw [List.map_cons, List.flatten_cons, ih]
        rfl
      · rw [ih]
        simp

-- The first pair of the division is the first pair of the array.
theorem splitLoop_head (bytePos : Nat) (start : K × V) (run rest : List (K × V)) :
    ∃ tail others, splitLoop bytePos start run rest = (start, tail) :: others := by
  induction rest generalizing start run with
  | nil => exact ⟨run, [], rfl⟩
  | cons kv rest ih =>
      rw [splitLoop]
      split
      · exact ⟨run, _, rfl⟩
      · exact ih start _

theorem splitLoop_bytes
    (same : ∀ kv ∈ run, RadixKey.byte kv.1 bytePos = RadixKey.byte start.1 bytePos)
    {group : (K × V) × List (K × V)} (member : group ∈ splitLoop bytePos start run rest) :
    ∀ kv ∈ whole group, RadixKey.byte kv.1 bytePos = RadixKey.byte group.1.1 bytePos := by
  induction rest generalizing start run with
  | nil =>
      rw [splitLoop, List.mem_singleton] at member
      subst member
      intro kv held
      rcases List.mem_cons.mp held with rfl | later
      · rfl
      · exact same kv later
  | cons kv rest ih =>
      rw [splitLoop] at member
      split at member
      · rcases List.mem_cons.mp member with rfl | later
        · intro kv held
          rcases List.mem_cons.mp held with rfl | later
          · rfl
          · exact same kv later
        · exact ih (by simp) later
      · rename_i equal
        push Not at equal
        refine ih ?_ member
        intro other held
        rcases List.mem_append.mp held with old | new
        · exact same other old
        · rw [List.mem_singleton.mp new]
          exact equal

theorem splitLoop_length (bytePos : Nat) (start : K × V) (run rest : List (K × V)) :
    (splitLoop bytePos start run rest).length ≤ rest.length + 1 := by
  induction rest generalizing start run with
  | nil => exact Nat.le_refl _
  | cons kv rest ih =>
      rw [splitLoop]
      split
      · have := ih kv []
        simp only [List.length_cons]
        omega
      · have := ih start (run ++ [kv])
        simp only [List.length_cons]
        omega

theorem splitLoop_two {kv : K × V} (member : kv ∈ rest)
    (differs : RadixKey.byte kv.1 bytePos ≠ RadixKey.byte start.1 bytePos) :
    2 ≤ (splitLoop bytePos start run rest).length := by
  induction rest generalizing run with
  | nil => cases member
  | cons other rest ih =>
      rw [splitLoop]
      split
      · obtain ⟨tail, others, equal⟩ := splitLoop_head bytePos other [] rest
        rw [equal]
        simp
      · rename_i equal
        push Not at equal
        rcases List.mem_cons.mp member with rfl | later
        · exact absurd equal differs
        · exact ih later

theorem splitLoop_sublist {group : (K × V) × List (K × V)}
    (member : group ∈ splitLoop bytePos start run rest) :
    List.Sublist (whole group) (start :: (run ++ rest)) := by
  rw [← splitLoop_flatten bytePos start run rest]
  exact List.sublist_flatten_of_mem (List.mem_map_of_mem member)

-- The runs stand in the array one after the other.
theorem splitLoop_infix {group : (K × V) × List (K × V)}
    (member : group ∈ splitLoop bytePos start run rest) :
    whole group <:+: start :: (run ++ rest) := by
  rw [← splitLoop_flatten bytePos start run rest]
  obtain ⟨before, after, same⟩ := List.append_of_mem member
  exact ⟨(before.map whole).flatten, (after.map whole).flatten, by simp [same]⟩

-- In a sorted array with a common prefix the bytes of the runs increase.
theorem splitLoop_increasing {key : K} (sorted : Sorted (start :: (run ++ rest)))
    (agree : ∀ kv ∈ start :: (run ++ rest), Agree kv.1 key bytePos) :
    ((splitLoop bytePos start run rest).map fun group => RadixKey.byte group.1.1 bytePos).Pairwise
    (· < ·) := by
  induction rest generalizing start run with
  | nil => exact List.pairwise_singleton _ _
  | cons kv rest ih =>
      rw [splitLoop]
      split
      · rename_i differs
        have later : List.Sublist (kv :: rest) (start :: (run ++ kv :: rest)) :=
          (List.sublist_append_right run (kv :: rest)).trans (List.sublist_cons_self _ _)
        rw [List.map_cons]
        refine List.pairwise_cons.mpr ⟨?_, ih (List.Pairwise.sublist later sorted) fun other held =>
          agree other (later.subset held)⟩
        intro byteval held
        obtain ⟨group, member, rfl⟩ := List.mem_map.mp held
        have inside : group.1 ∈ kv :: rest := (splitLoop_sublist member).subset List.mem_cons_self
        obtain ⟨before, _⟩ := List.pairwise_cons.mp sorted
        have both (other : K × V) (held : other ∈ kv :: rest) : Agree start.1 other.1 bytePos :=
          (agree start List.mem_cons_self).trans (agree other (later.subset held)).symm
        have first : RadixKey.byte start.1 bytePos < RadixKey.byte kv.1 bytePos :=
          lt_of_le_of_ne ((both kv List.mem_cons_self).byte_le_of_le
            (before kv (List.mem_append_right _ List.mem_cons_self)).le) (Ne.symm differs)
        -- The runs after the first one start at `kv` or later.
        have second : RadixKey.byte kv.1 bytePos ≤ RadixKey.byte group.1.1 bytePos := by
          rcases List.mem_cons.mp inside with same | after
          · rw [same]
          · have tail := List.Pairwise.sublist later sorted
            exact ((agree kv (later.subset List.mem_cons_self)).trans
              (agree group.1 (later.subset inside)).symm).byte_le_of_le
                ((List.pairwise_cons.mp tail).1 _ after).le
        exact lt_of_lt_of_le first second
      · refine ih ?_ ?_
        · rw [List.append_assoc]
          exact sorted
        · rw [List.append_assoc]
          exact agree

-- A run agrees with its first pair up to and including the dividing byte.
theorem run_agree (sorted : Sorted (start :: rest))
    (agree : ∀ kv ∈ start :: rest, Agree kv.1 start.1 bytePos) {group : (K × V) × List (K × V)}
    (member : group ∈ splitLoop bytePos start [] rest) :
    Sorted (whole group) ∧ (∀ kv ∈ group.2, Agree kv.1 group.1.1 (bytePos + 1)) ∧
    ∀ kv ∈ whole group, kv ∈ start :: rest := by
  have part := splitLoop_sublist member
  have bytes := splitLoop_bytes (by simp) member
  refine ⟨List.Pairwise.sublist part sorted, fun kv held => ?_, fun kv held => part.subset held⟩
  have first := agree group.1 (part.subset List.mem_cons_self)
  have other := agree kv (part.subset (List.mem_cons_of_mem _ held))
  exact (other.trans first.symm).succ (bytes kv (List.mem_cons_of_mem _ held))

end Split

end SetBench.KeyVals
