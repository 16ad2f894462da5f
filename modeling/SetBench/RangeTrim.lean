import SetBench.ArtClip
import SetBench.DoubleLogMap
import SetBench.KeyRange

/-! The trimming loops at a plain leaf, which do not test their index: in art.h at every leaf, in
art_double_log_leaves.h at the small leaves. -/
namespace SetBench.Art

open Radix KeyVals MapSpec

variable {K V : Type} [RadixKey K] {heap : Heap K (Leaf K V)} {lo hi : K}

def leafAt (heap : Heap K (Leaf K V)) (c : Addr) : Option (Leaf K V) :=
  match heap.node c with
  | some (.leaf l) => some l
  | _ => none

/-- If find_location ends in a leaf, the leaf is such. -/
def EndsIn (heap : Heap K (Leaf K V)) (k : K) (such : Leaf K V → Prop) : Prop :=
  ∀ l, ((findLocation heap k).bind fun location => location.c.bind (leafAt heap)) = some l → such l

omit [RadixKey K] in
theorem leafAt_some {c : Addr} {l : Leaf K V} :
    leafAt heap c = some l ↔ heap.node c = some (.leaf l) := by
  unfold leafAt
  split
  · rename_i m here
    simp [here]
  · rename_i other
    refine ⟨(fun absurd_ => nomatch absurd_), fun here => absurd here (other l)⟩

-- Every read of the two loops at the leaves of these visits.
def ReadsInside (heap : Heap K (Leaf K V)) (visits : List (Visit K)) : Prop :=
  ∀ v ∈ visits, ∀ l, heap.node v.leaf = some (.leaf l) →
    ∀ i ∈ trimReads l.keyVals v.start v.stop, 0 ≤ i ∧ i < l.size

section Loops

variable {L : Type} [RadixLeaf K V L] {least maxSparse : Nat} {tree : Heap K L}
    {entries : L → List (K × V)} {trims : L → Prop}

/-- Only the leaves of the bounds themselves are at risk: every other leaf that is reached lies
between them. -/
theorem trims_iff
    (held : ∀ b l, tree.node b = some (.leaf l) → trims l → ∃ kv ∈ entries l, Marks l kv.1)
    (ordered : lo ≤ hi) {visits : List (Visit K)}
    (visited : Visited lo hi tree root (some lo) (some hi) visits) :
    (∀ v ∈ visits, ∀ l, tree.node v.leaf = some (.leaf l) → trims l →
      ∀ i ∈ trimReads (entries l) v.start v.stop, 0 ≤ i ∧ i < (entries l).length) ↔
    (∀ b l, Trail tree lo root b → tree.node b = some (.leaf l) → trims l →
      ∃ kv ∈ entries l, lo ≤ kv.1) ∧
    ∀ b l, Trail tree hi root b → tree.node b = some (.leaf l) → trims l →
      ∃ kv ∈ entries l, kv.1 ≤ hi := by
  have loops (v : Visit K) (l : L) := trimReads_inside (entries l) v.start v.stop
  constructor
  · intro inside
    refine ⟨fun b l trail leaf kind => ?_, fun b l trail leaf kind => ?_⟩
    · obtain ⟨v, listed, rfl, kept, _⟩ := visited.trail lo b le_rfl ordered trail
      exact ((loops v l).mp (inside v listed l leaf kind)).1 lo (kept rfl rfl)
    · obtain ⟨v, listed, rfl, _, kept⟩ := visited.trail hi b ordered le_rfl trail
      exact ((loops v l).mp (inside v listed l leaf kind)).2 hi (kept rfl rfl)
  · rintro ⟨first, last⟩ v listed l leaf kind
    obtain ⟨_, l', leaf', marks⟩ := visited.leaf v listed
    rw [leaf] at leaf'
    cases leaf'
    obtain ⟨kv, member, mark⟩ := held v.leaf l leaf kind
    obtain ⟨n, bounds⟩ := marks kv.1 mark
    refine (loops v l).mpr ⟨fun s left => ?_, fun e left => ?_⟩
    · have side := bounds.low
      rw [left] at side
      obtain ⟨rfl, _⟩ := side
      rcases visited.low v listed (by rw [left]; simp) with trail | above
      · exact first v.leaf l trail leaf kind
      · exact ⟨kv, member, (above l kv.1 leaf mark).le⟩
    · have side := bounds.high
      rw [left] at side
      obtain ⟨rfl, _⟩ := side
      rcases visited.high v listed (by rw [left]; simp) with trail | below
      · exact last v.leaf l trail leaf kind
      · exact ⟨kv, member, (below l kv.1 leaf mark).le⟩

end Loops

theorem endsIn_iff (tree : Tree heap) (k : K) (such : Leaf K V → Prop) :
    EndsIn heap k such ↔ ∀ b l, Trail heap k root b → heap.node b = some (.leaf l) → True →
      such l := by
  obtain ⟨location, p, found, located⟩ := findLocation_located tree.sound k
  simp only [EndsIn, found, Option.bind_some, Option.bind_eq_some_iff, leafAt_some]
  constructor
  · intro ends b l trail leaf _
    exact ends l ⟨b, ((located.trail_iff tree.sound b).mp trail).1, leaf⟩
  · rintro all l ⟨b, held, leaf⟩
    exact all b l ((located.trail_iff tree.sound b).mpr ⟨held, l, leaf⟩) leaf trivial

theorem readsInside_iff (tree : Tree heap) (ordered : lo ≤ hi) {visits : List (Visit K)}
    (visited : Visited lo hi heap root (some lo) (some hi) visits) : ReadsInside heap visits ↔
      EndsIn heap lo (fun l => ∃ kv ∈ l.keyVals, lo ≤ kv.1) ∧
        EndsIn heap hi (fun l => ∃ kv ∈ l.keyVals, kv.1 ≤ hi) := by
  rw [endsIn_iff tree, endsIn_iff tree]
  have held : ∀ b l, heap.node b = some (.leaf l) → True → ∃ kv ∈ l.keyVals, Marks l kv.1 := by
    intro b l leaf _
    obtain ⟨kv, member⟩ := (tree.leaves b l leaf).exists_mem
    exact ⟨kv, member, Or.inr ⟨kv.2, member⟩⟩
  rw [← trims_iff held ordered visited]
  exact forall₂_congr fun v _ => forall₂_congr fun l _ =>
    ⟨fun inside _ => inside, fun inside => inside trivial⟩

end SetBench.Art

namespace SetBench.DoubleLog

open Radix KeyVals Art MapSpec

variable {K V : Type} [RadixKey K] {heap : Heap K (Leaf K V)} {lo hi : K}

/-- If find_location ends in a small leaf, the leaf is such. -/
def EndsIn (heap : Heap K (Leaf K V)) (k : K) (such : Leaf K V → Prop) : Prop :=
  ∀ found, ((findLocation heap k).bind fun location => leafAt heap location.c) = some found →
    found.2.isLog = false → such found.2

-- Every read of the two loops at the small leaves of these visits.
def ReadsInside (heap : Heap K (Leaf K V)) (visits : List (Visit K)) : Prop :=
  ∀ v ∈ visits, ∀ l, heap.node v.leaf = some (.leaf l) → l.isLog = false →
    ∀ i ∈ trimReads l.keyVals v.start v.stop, 0 ≤ i ∧ i < l.size

/-- The layouts, prefixes and slots fit, and so do the arrays and logs of the leaves. -/
structure Shaped (heap : Heap K (Leaf K V)) : Prop where
  sound : Sound 1 maxSparseSize heap
  leaves : Leaves Leaf.Ok heap

theorem Shaped.clip (shaped : Shaped heap) (lo hi : K) : Shaped (heap.clip lo hi) :=
  ⟨shaped.sound.clip lo hi, fun b l leaf => shaped.leaves b l (clip_leaf.mp leaf).2⟩

section Part

variable (shaped : Shaped (heap.clip lo hi))
include shaped

theorem endsIn_iff {k : K} (low : lo ≤ k) (high : k ≤ hi) (such : Leaf K V → Prop) :
    EndsIn heap k such ↔ ∀ b l, Trail (heap.clip lo hi) k root b →
      (heap.clip lo hi).node b = some (.leaf l) → l.isLog = false → such l := by
  obtain ⟨location, p, found, _, located, met⟩ := located_clip shaped.sound low high
  simp only [EndsIn, found, Option.bind_some]
  constructor
  · intro ends b l trail leaf kind
    have held := ((located.trail_iff shaped.sound b).mp trail).1
    exact ends (b, l) (by rw [held]; exact leafAt_leaf (clip_leaf.mp leaf).2) kind
  · rintro all ⟨b, l⟩ found kind
    obtain ⟨held, leaf⟩ := leafAt_some found
    have leaf : (heap.clip lo hi).node b = some (.leaf l) := clip_leaf.mpr ⟨met b held, leaf⟩
    exact all b l ((located.trail_iff shaped.sound b).mpr ⟨held, l, leaf⟩) leaf kind

theorem readsInside_iff (ordered : lo ≤ hi) : ∃ visits, range_ heap lo hi = some visits ∧
    (ReadsInside heap visits ↔ EndsIn heap lo (fun l => ∃ kv ∈ l.keyVals, lo ≤ kv.1) ∧
      EndsIn heap hi fun l => ∃ kv ∈ l.keyVals, kv.1 ≤ hi) := by
  obtain ⟨visits, returned, visited⟩ := range_visited shaped.sound lo hi
  refine ⟨visits, (range_clip shaped.sound).symm.trans returned, ?_⟩
  rw [endsIn_iff shaped le_rfl ordered, endsIn_iff shaped ordered le_rfl]
  have held : ∀ b l, (heap.clip lo hi).node b = some (.leaf l) → l.isLog = false →
      ∃ kv ∈ l.keyVals, Marks l kv.1 := by
    intro b l leaf kind
    have ok := shaped.leaves b l leaf
    have empty := (ok.small kind).1
    obtain ⟨kv, member⟩ := List.exists_mem_of_length_pos (ok.held kind)
    refine ⟨kv, member, Or.inr ⟨kv.2, ?_⟩⟩
    change kv ∈ l.contents
    rw [Leaf.contents_plain empty (ok.second_none empty)]
    exact member
  rw [← trims_iff held ordered visited]
  refine forall₂_congr fun v listed => forall_congr' fun l => ?_
  obtain ⟨_, m, leaf, _⟩ := visited.leaf v listed
  have there := (clip_leaf.mp leaf).2
  rw [there, leaf]
  rfl

end Part

end SetBench.DoubleLog

namespace SetBench.Art

open Radix KeyVals MapSpec

def fiveOnly : List (Op Key Nat) := [.insert 5 50]

-- Where find_location ends for 3, 6 and 8, there is the leaf of 5.
theorem fiveOnly_leaf {k : Key}
    (there : ((findLocation (runOps (attempt 0) 1 fiveOnly (emptyTree 0)).1 k).bind fun location =>
      location.c.bind (leafAt (runOps (attempt 0) 1 fiveOnly (emptyTree 0)).1)).map
      Leaf.keyVals = some [(5, 50)])
    {such : Leaf Key Nat → Prop} (good : ∀ l : Leaf Key Nat, l.keyVals = [(5, 50)] → such l) :
    EndsIn (runOps (attempt 0) 1 fiveOnly (emptyTree 0)).1 k such := by
  intro l found
  rw [found, Option.map_some, Option.some.injEq] at there
  exact good l there

theorem fiveOnly_small {k : Key}
    (there : ((findLocation (runOps (DoubleLog.attempt 0) 1 fiveOnly (emptyTree 0)).1 k).bind
      fun location => DoubleLog.leafAt (runOps (DoubleLog.attempt 0) 1 fiveOnly (emptyTree 0)).1
        location.c).map (fun found => found.2.keyVals) = some [(5, 50)])
    {such : DoubleLog.Leaf Key Nat → Prop}
    (good : ∀ l : DoubleLog.Leaf Key Nat, l.keyVals = [(5, 50)] → such l) :
    DoubleLog.EndsIn (runOps (DoubleLog.attempt 0) 1 fiveOnly (emptyTree 0)).1 k such := by
  intro leaf found _
  rw [found, Option.map_some, Option.some.injEq] at there
  exact good leaf.2 there

end SetBench.Art
