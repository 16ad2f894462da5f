import SetBench.ArtPlace

/-! The leaves of art.h: their constructors and what every constructed leaf satisfies.
The add constructor takes the byte position of a search as the new byte_num and keeps the
old header key; the remove constructor recomputes both. -/
namespace SetBench.Art

open Radix KeyVals

variable {K V : Type} [RadixKey K]

def maxSmallLeafSize : Nat := 2

def maxBigLeafSize : Nat := 14

/-- A generic_leaf; `big` tells the big_leaf pool from the small_leaf pool. -/
structure Leaf (K V : Type) where
  big : Bool
  key : K
  byteNum : Nat
  keyVals : List (K × V)

namespace Leaf

def size (l : Leaf K V) : Nat := l.keyVals.length

-- create singleton leaf
def single (k : K) (v : V) : Leaf K V := ⟨false, k, RadixKey.size K, [(k, v)]⟩

-- add to leaf
def add (big : Bool) (bytePos : Nat) (l : Leaf K V) (k : K) (v : V) : Leaf K V :=
  ⟨big, l.key, bytePos, insert l.keyVals k v⟩

-- remove from leaf; the result of a leaf of size one is never built
def remove (big : Bool) (l : Leaf K V) (k : K) : Leaf K V :=
  match l.keyVals.filter fun kv => kv.1 ≠ k with
  | [] => ⟨big, l.key, l.byteNum, []⟩
  | start :: rest => ⟨big, start.1, firstDiff l.byteNum start rest, start :: rest⟩

-- new_leaf, with the multi-pair constructor
def ofPairs (bytePos : Nat) (start : K × V) (rest : List (K × V)) : Leaf K V :=
  ⟨decide (maxSmallLeafSize < rest.length + 1), start.1, firstDiff bytePos start rest,
    start :: rest⟩

-- The leaves that replace a full leaf.
def divide (bytePos : Nat) (start : K × V) (rest : List (K × V)) : List (Leaf K V) :=
  (splitLoop bytePos start [] rest).map fun group => ofPairs (bytePos + 1) group.1 group.2

/-- Every leaf ever built is sorted, shares its prefix with the header key, has its first
differing byte in byte_num and fits its array. -/
structure Ok (l : Leaf K V) : Prop where
  sorted : Sorted l.keyVals
  agree : ∀ kv ∈ l.keyVals, Agree kv.1 l.key l.byteNum
  single : l.size = 1 → l.byteNum = RadixKey.size K
  differ : l.size ≠ 1 → DifferAt l.keyVals l.byteNum
  small : l.big = false → 1 ≤ l.size ∧ l.size ≤ maxSmallLeafSize
  large : l.big = true → maxSmallLeafSize < l.size ∧ l.size ≤ maxBigLeafSize

end Leaf

instance : RadixLeaf K V (Leaf K V) where
  key := Leaf.key
  byteNum := Leaf.byteNum
  pairs := Leaf.keyVals

namespace Leaf

variable {l : Leaf K V} {k : K} {v : V} {bytePos : Nat}

theorem Ok.size_pos (ok : Ok l) : 1 ≤ l.size := by
  cases kind : l.big with
  | false => exact (ok.small kind).1
  | true => exact Nat.le_trans (by decide) (ok.large kind).1.le

theorem Ok.size_le (ok : Ok l) : l.size ≤ maxBigLeafSize := by
  cases kind : l.big with
  | false => exact Nat.le_trans (ok.small kind).2 (by decide)
  | true => exact (ok.large kind).2

theorem Ok.exists_mem (ok : Ok l) : ∃ kv, kv ∈ l.keyVals :=
  List.exists_mem_of_ne_nil _ fun empty => by
    have := ok.size_pos
    simp [size, empty] at this

theorem single_ok (k : K) (v : V) : Ok (single k v) where
  sorted := List.pairwise_singleton _ _
  agree := by
    intro kv member
    rw [List.mem_singleton.mp member]
    exact Agree.refl _ _
  single := fun _ => rfl
  differ := fun other => absurd rfl other
  small := fun _ => ⟨Nat.le_refl _, Nat.le_succ _⟩
  large := fun kind => nomatch kind

theorem single_one (k : K) (v : V) {pos : Nat} (inside : pos < RadixKey.size K) :
    OneKey (single k v) k v pos :=
  ⟨rfl, rfl, inside⟩

section Add

variable {depth : Nat} (ok : Ok l) (absent : ∀ v, (k, v) ∉ l.keyVals) (agree : Agree k l.key depth)
  (below : depth ≤ l.byteNum)
include ok absent agree below

-- The search position is the first byte at which the keys and `k` differ.
theorem add_differ : DifferAt (insert l.keyVals k v) (matchBytes k l.key depth l.byteNum) := by
  have within := (matchBytes_le k l.key below).2
  have new := matchBytes_agree k l.key l.byteNum agree
  have all : ∀ kv ∈ insert l.keyVals k v, Agree kv.1 l.key
    (matchBytes k l.key depth l.byteNum) := by
    intro kv member
    rcases (mem_insert _ _ _ _).mp member with old | rfl
    · exact (ok.agree kv old).mono within
    · exact new
  refine ⟨fun one first other second => (all one first).trans (all other second).symm, ?_⟩
  rcases Nat.lt_or_eq_of_le within with early | exact_
  · obtain ⟨kv, member⟩ := ok.exists_mem
    refine ⟨(k, v), (mem_insert _ _ _ _).mpr (Or.inr rfl), kv,
      (mem_insert _ _ _ _).mpr (Or.inl member), ?_⟩
    rw [ok.agree kv member _ early]
    exact (matchBytes_parts k l.key agree early).2
  · by_cases one : l.size = 1
    · obtain ⟨kv, member⟩ := ok.exists_mem
      have same : kv.1 = l.key := agree_size (ok.single one ▸ ok.agree kv member)
      have equal : k = l.key := agree_size (by rw [← ok.single one, ← exact_]; exact new)
      exact absurd (show (k, kv.2) ∈ l.keyVals by rw [equal, ← same]; exact member) (absent kv.2)
    · obtain ⟨a, first, b, second, differs⟩ := (ok.differ one).differ
      rw [exact_]
      exact ⟨a, (mem_insert _ _ _ _).mpr (Or.inl first), b,
        (mem_insert _ _ _ _).mpr (Or.inl second), differs⟩

theorem add_ok {big : Bool} (small : big = false → l.size < maxSmallLeafSize)
    (large : big = true → maxSmallLeafSize ≤ l.size ∧ l.size < maxBigLeafSize) :
    Ok (add big (matchBytes k l.key depth l.byteNum) l k v) := by
  have differ := add_differ (v := v) ok absent agree below
  have length : (add big (matchBytes k l.key depth l.byteNum) l k v).size = l.size + 1 :=
    length_insert _ _ _
  have positive := ok.size_pos
  refine ⟨insert_sorted ok.sorted v absent, ?_, ?_, fun _ => differ, ?_, ?_⟩
  · intro kv member
    rcases (mem_insert _ _ _ _).mp member with old | rfl
    · exact (ok.agree kv old).mono (matchBytes_le k l.key below).2
    · exact matchBytes_agree k l.key l.byteNum agree
  · intro one
    omega
  · intro kind
    have := small kind
    omega
  · intro kind
    have := large kind
    omega

end Add

section Remove

theorem remove_mem (l : Leaf K V) (k : K) (big : Bool) (k' : K) (v' : V) :
    (k', v') ∈ (remove big l k).keyVals ↔ (k', v') ∈ l.keyVals ∧ k' ≠ k := by
  have kept : (remove big l k).keyVals = l.keyVals.filter fun kv => kv.1 ≠ k := by
    unfold remove
    split
    · rename_i empty
      exact empty.symm
    · rename_i start rest kept
      exact kept.symm
  rw [kept, List.mem_filter]
  simp

theorem remove_key {big : Bool} (ok : Ok (remove big l k)) :
    ∃ v, ((remove big l k).key, v) ∈ (remove big l k).keyVals := by
  obtain ⟨kv, member⟩ := ok.exists_mem
  unfold remove at member ⊢
  split at member
  · cases member
  · rename_i start rest kept
    exact ⟨start.2, .head _⟩

theorem remove_ok (ok : Ok l) (member : (k, v) ∈ l.keyVals) (two : l.size ≠ 1) {big : Bool}
    (small : big = false → l.size ≤ maxSmallLeafSize + 1)
    (large : big = true → maxSmallLeafSize + 1 < l.size) :
    Ok (remove big l k) ∧ l.byteNum ≤ (remove big l k).byteNum := by
  have length := length_filter_ne ok.sorted.distinct member
  have sorted : Sorted (l.keyVals.filter fun kv => kv.1 ≠ k) := ok.sorted.filter _
  have agree : ∀ kv ∈ l.keyVals.filter (fun kv => kv.1 ≠ k), Agree kv.1 l.key l.byteNum :=
    fun kv held =>
    ok.agree kv (List.mem_filter.mp held).1
  have count : l.size = l.keyVals.length := rfl
  have most := ok.size_le
  unfold remove
  split
  · rename_i empty
    rw [empty] at length
    simp only [List.length_nil] at length
    omega
  · rename_i start rest kept
    rw [kept] at length sorted agree
    simp only [List.length_cons] at length
    have prefix_ : ∀ kv ∈ rest, Agree kv.1 start.1 l.byteNum := fun kv held =>
      (agree kv (.tail _ held)).trans (agree start (.head _)).symm
    have bound : rest.length = 0 ∨ DifferAt (start :: rest) (firstDiff l.byteNum start rest) ∧
        l.byteNum ≤ firstDiff l.byteNum start rest := by
      by_cases empty : rest.length = 0
      · exact Or.inl empty
      · exact Or.inr (firstDiff_differ empty sorted prefix_)
    refine ⟨⟨sorted, ?_, ?_, ?_, ?_, ?_⟩, ?_⟩
    · intro kv held
      rcases bound with empty | ⟨differ, _⟩
      · rw [List.length_eq_zero_iff.mp empty, List.mem_singleton] at held
        rw [held]
        exact Agree.refl _ _
      · exact differ.agree kv held start (.head _)
    · intro one
      have empty : rest.length = 0 := by simpa [size] using one
      simp only [firstDiff, if_pos empty]
    · intro more
      rcases bound with empty | ⟨differ, _⟩
      · exact absurd (by simpa [size] using empty) more
      · exact differ
    · intro kind
      have := small kind
      change 1 ≤ rest.length + 1 ∧ rest.length + 1 ≤ maxSmallLeafSize
      omega
    · intro kind
      have := large kind
      change maxSmallLeafSize < rest.length + 1 ∧ rest.length + 1 ≤ maxBigLeafSize
      omega
    · rcases bound with empty | ⟨_, le⟩
      · simp only [firstDiff, if_pos empty]
        by_contra deep
        obtain ⟨a, first, b, second, differs⟩ := (ok.differ two).differ
        have same : a.1 = b.1 := agree_size
          (((ok.differ two).agree a first b second).mono (by omega))
        exact differs (by rw [same])
      · exact le

end Remove

section Divide

variable {start : K × V} {rest : List (K × V)}

theorem ofPairs_ok (sorted : Sorted (start :: rest))
    (agree : ∀ kv ∈ rest, Agree kv.1 start.1 bytePos) (most : rest.length + 1 ≤ maxBigLeafSize) :
    Ok (ofPairs bytePos start rest) := by
  have length : (ofPairs bytePos start rest).size = rest.length + 1 := rfl
  refine ⟨sorted, ?_, ?_, ?_, ?_, ?_⟩
  · intro kv held
    by_cases empty : rest.length = 0
    · have held : kv ∈ start :: rest := held
      rw [List.length_eq_zero_iff.mp empty, List.mem_singleton] at held
      rw [held]
      exact Agree.refl _ _
    · exact (firstDiff_differ empty sorted agree).1.agree kv held start (.head _)
  · intro one
    have empty : rest.length = 0 := by omega
    simp only [ofPairs, firstDiff, if_pos empty]
  · intro more
    exact (firstDiff_differ (by omega) sorted agree).1
  · intro kind
    have : ¬ maxSmallLeafSize < rest.length + 1 := by simpa [ofPairs] using kind
    omega
  · intro kind
    have : maxSmallLeafSize < rest.length + 1 := by simpa [ofPairs] using kind
    omega

variable (sorted : Sorted (start :: rest))
    (agree : ∀ kv ∈ start :: rest, Agree kv.1 start.1 bytePos)
include sorted agree

theorem divide_divided (inside : bytePos < RadixKey.size K) :
    Divided bytePos start.1 (divide bytePos start rest) := by
  exact runs_divided (fun _ => rfl) (fun _ => rfl) sorted agree fun group _ =>
    firstDiff_deep group.1 group.2 (Nat.lt_succ_self _) inside

theorem divide_ok (full : rest.length = maxBigLeafSize)
    (differs : ∃ kv ∈ rest, RadixKey.byte kv.1 bytePos ≠ RadixKey.byte start.1 bytePos) :
    ∀ l ∈ divide bytePos start rest, Ok l := by
  intro l member
  obtain ⟨group, held, rfl⟩ := List.mem_map.mp member
  obtain ⟨ordered, common, part⟩ := run_agree sorted agree held
  refine ofPairs_ok ordered common ?_
  -- A run of all fifteen pairs would have one byte.
  have le := (splitLoop_sublist held).length_le
  have bytes := splitLoop_bytes (by simp) held
  by_contra more
  have equal : whole group = start :: ([] ++ rest) := by
    refine (splitLoop_sublist held).eq_of_length ?_
    simp only [whole, List.length_cons, List.nil_append] at le ⊢
    omega
  obtain ⟨kv, inside, different⟩ := differs
  rw [equal] at bytes
  exact different ((bytes kv (List.mem_cons_of_mem _ inside)).trans
    (bytes start List.mem_cons_self).symm)

omit sorted agree in
theorem divide_mem (bytePos : Nat) (start : K × V) (rest : List (K × V)) (entry : K × V) :
    (∃ l ∈ divide bytePos start rest, entry ∈ l.keyVals) ↔ entry ∈ start :: rest :=
  runs_mem (fun group => ofPairs (bytePos + 1) group.1 group.2) (fun _ => rfl) bytePos start rest
    entry

end Divide

end Leaf

end SetBench.Art
