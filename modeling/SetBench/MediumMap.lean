import SetBench.LeafPools
import SetBench.ArtErase
import SetBench.ArtContents

/-! art_medium_leaves.h takes the steps of art.h: with the pools of the leaves forgotten,
every attempt is an attempt of art.h. So the tree answers like the map, and no leaf
outgrows the pool it came from. -/
namespace SetBench.MediumLeaf

open Radix KeyVals Art MapSpec

variable {K V : Type} [RadixKey K]

/-- The leaf of art.h with the same header and pairs. -/
def Leaf.erase (l : Leaf K V) : Art.Leaf K V :=
  ⟨decide (maxSmallLeafSize < l.size), l.key, l.byteNum, l.keyVals⟩

def erase (heap : Heap K (Leaf K V)) : Heap K (Art.Leaf K V) := heap.map Leaf.erase

variable {heap : Heap K (Leaf K V)} {k : K} {v : V}

omit [RadixKey K] in
theorem same_header : SameHeader (Leaf.erase : Leaf K V → Art.Leaf K V) :=
  ⟨fun _ => rfl, fun _ => rfl⟩

theorem erase_single (k : K) (v : V) : (Leaf.single k v).erase = Art.Leaf.single k v := rfl

theorem erase_add (big : Bool) (pool : Pool) (bytePos : Nat) (l : Leaf K V) (k : K) (v : V)
    (kind : big = decide (maxSmallLeafSize < l.size + 1)) :
    (Leaf.add pool bytePos l k v).erase = Art.Leaf.add big bytePos l.erase k v := by
  have length : (Leaf.add pool bytePos l k v).size = l.size + 1 := length_insert _ _ _
  rw [Leaf.erase, length, ← kind]
  rfl

theorem erase_remove {big : Bool} (pool : Pool) {l : Leaf K V} (ok : Leaf.Ok l)
    (found : find l.keyVals k = some v) (kind : big = decide (maxSmallLeafSize < l.size - 1)) :
    (Leaf.remove pool l k).erase = Art.Leaf.remove big l.erase k := by
  rw [Leaf.erase, Leaf.remove_size ok found, ← kind]
  unfold Leaf.remove Art.Leaf.remove
  simp only [Leaf.erase]
  cases l.keyVals.filter fun kv => kv.1 ≠ k <;> rfl

theorem erase_divide (bytePos : Nat) (start : K × V) (rest : List (K × V)) :
    (Leaf.divide bytePos start rest).map Leaf.erase = Art.Leaf.divide bytePos start rest := by
  rw [Leaf.divide, List.map_map]
  rfl

omit [RadixKey K] in
theorem erase_alloc (heap : Heap K (Leaf K V)) (l : Leaf K V) :
    (erase heap).alloc (.leaf l.erase) =
    (erase (heap.alloc (.leaf l)).1, (heap.alloc (.leaf l)).2) :=
  map_alloc Leaf.erase heap (.leaf l)

omit [RadixKey K] in
theorem erase_replace (heap : Heap K (Leaf K V)) (taken : Pool) (l new : Leaf K V) :
    (erase (replace heap taken l new).heap, (replace heap taken l new).child) =
      (((erase heap).alloc (.leaf new.erase)).1,
        some ((erase heap).alloc (.leaf new.erase)).2) := by
  rw [erase_alloc]
  rfl

theorem erase_insertChild (heap : Heap K (Leaf K V)) (c : Option Addr) (bytePos : Nat) (k : K)
    (v : V) :
    (insertChild heap c bytePos k v).map
    (fun change : Change K V => (erase change.heap, change.child)) =
      (Art.insertChild (erase heap) c bytePos k v).map fun built => (built.1, some built.2) := by
  cases c with
  | none => simp only [insertChild, Art.insertChild, Option.map_some, ← erase_single, erase_alloc]
  | some c =>
      have here : (erase heap).node c = (heap.node c).map (Node.map Leaf.erase) := rfl
      cases there : heap.node c with
      | none =>
          rw [there, Option.map_none] at here
          simp only [insertChild, Art.insertChild, there, here, Option.map_none]
      | some node =>
          cases node with
          | inner q =>
              rw [there, Option.map_some, Node.map] at here
              have cut : cutEdge (erase heap) c q.key bytePos (Art.Leaf.single k v) k =
                  (erase (cutEdge heap c q.key bytePos (Leaf.single k v) k).1, _) :=
                map_cutEdge Leaf.erase heap c q.key bytePos (.single k v) k
              simp only [insertChild, Art.insertChild, there, here, Option.map_some, cut]
          | leaf l =>
              rw [there, Option.map_some, Node.map] at here
              have size : l.erase.size = l.size := rfl
              simp only [insertChild, Art.insertChild, there, here, size]
              split
              · rename_i room
                rw [Option.map_some, erase_replace, erase_add false _ _ _ _ _ (by simp; omega)]
                rfl
              · split
                · rename_i exact_
                  rw [Option.map_some, erase_replace, erase_add true _ _ _ _ _ (by simp; omega)]
                  rfl
                · split
                  · rename_i least other room
                    rw [Option.map_some, erase_replace, erase_add true _ _ _ _ _ (by simp; omega)]
                    rfl
                  · have pairs : l.erase.keyVals = l.keyVals := rfl
                    rw [pairs]
                    cases insert l.keyVals k v with
                    | nil => rfl
                    | cons start rest =>
                        simp only [Option.map_some, erase, ← erase_divide,
                          map_splitLeaf heap same_header]

theorem erase_removeChild (heap : Heap K (Leaf K V)) {l : Leaf K V} (ok : Leaf.Ok l)
    (found : find l.keyVals k = some v) :
    (erase (removeChild heap l k).heap, (removeChild heap l k).child) = Art.removeChild (erase heap)
    l.erase k := by
  have small : maxSmallLeafSize = 2 := rfl
  have medium : maxMediumLeafSize = 6 := rfl
  have size : l.erase.size = l.size := rfl
  have put (taken pool : Pool) (big : Bool) (kind : big = decide (maxSmallLeafSize < l.size - 1)) :
      (erase (replace heap taken l (.remove pool l k)).heap,
        (replace heap taken l (.remove pool l k)).child) =
        (((erase heap).alloc (.leaf (.remove big l.erase k))).1,
          some ((erase heap).alloc (.leaf (.remove big l.erase k))).2) := by
    rw [erase_replace, erase_remove pool ok found kind]
  unfold removeChild Art.removeChild
  rw [size]
  split
  · rfl
  · split
    · rw [put _ _ true (by simp; omega), if_pos (by omega)]
    · split
      · rw [put _ _ true (by simp; omega), if_pos (by omega)]
      · split
        · exact put _ _ true (by simp; omega)
        · split
          · exact put _ _ false (by simp; omega)
          · exact put _ _ false (by simp; omega)

omit [RadixKey K] in
theorem erase_store (heap : Heap K (Leaf K V)) (a : Addr) (index : Nat) (child : Option Addr) :
    (erase heap).store a index child = erase (heap.store a index child) :=
  map_store Leaf.erase heap a index child

theorem erase_leafFind (heap : Heap K (Leaf K V)) (c : Option Addr) (k : K) :
    Art.leafFind (erase heap) c k = leafFind heap c k := by
  cases c with
  | none => rfl
  | some c =>
      have here : (erase heap).node c = (heap.node c).map (Node.map Leaf.erase) := rfl
      simp only [Art.leafFind, leafFind, here, Option.bind_some]
      cases heap.node c with
      | none => rfl
      | some node => cases node <;> rfl

theorem erase_tryInsert (noValue : V) (k : K) (v : V) (s : Memory K V) :
    Art.tryInsert noValue k v (erase s.heap) =
      (erase (tryInsert noValue k v s).1.heap, (tryInsert noValue k v s).2) := by
  have search : findLocation (erase s.heap) k = findLocation s.heap k :=
    map_findLocation s.heap same_header k
  simp only [Art.tryInsert, tryInsert, search]
  cases findLocation s.heap k with
  | none => rfl
  | some location =>
      have kept : unchanged (erase s.heap) location = unchanged s.heap location :=
        map_unchanged Leaf.erase s.heap location
      simp only [erase_leafFind, kept]
      cases leafFind s.heap location.c k with
      | some value => cases unchanged s.heap location <;> rfl
      | none =>
          cases location.cptr with
          | none =>
              cases location.gp with
              | none => rfl
              | some gp =>
                  have copied : addChild maxSparseSize (erase s.heap) gp location.p k
                    (Art.Leaf.single k v) =
                      (addChild maxSparseSize s.heap gp location.p k (Leaf.single k v)).map erase :=
                    map_addChild Leaf.erase s.heap maxSparseSize gp location.p k (.single k v)
                  simp only [copied]
                  cases addChild maxSparseSize s.heap gp location.p k (Leaf.single k v) <;> rfl
          | some index =>
              cases unchanged s.heap location with
              | false => rfl
              | true =>
                  have built := erase_insertChild s.heap location.c location.bytePos k v
                  simp only [if_true]
                  cases made : insertChild s.heap location.c location.bytePos k v with
                  | none =>
                      cases other : Art.insertChild (erase s.heap) location.c location.bytePos k
                        v with
                      | none => rfl
                      | some pair => simp [made, other] at built
                  | some change =>
                      cases other : Art.insertChild (erase s.heap) location.c location.bytePos k
                        v with
                      | none => simp [made, other] at built
                      | some pair =>
                          simp only [made, other, Option.map_some, Option.some.injEq,
                            Prod.mk.injEq] at built
                          obtain ⟨heaps, child⟩ := built
                          simp only [Memory.link, ← erase_store, heaps, child]

theorem erase_tryRemove (noValue : V) (k : K) (s : Memory K V) (leaves : Leaves Leaf.Ok s.heap) :
    Art.tryRemove noValue k (erase s.heap) = (erase (tryRemove noValue k s).1.heap,
      (tryRemove noValue k s).2) := by
  have search : findLocation (erase s.heap) k = findLocation s.heap k :=
    map_findLocation s.heap same_header k
  simp only [Art.tryRemove, tryRemove, search]
  cases findLocation s.heap k with
  | none => rfl
  | some location =>
      have kept : unchanged (erase s.heap) location = unchanged s.heap location :=
        map_unchanged Leaf.erase s.heap location
      simp only [erase_leafFind, kept]
      cases location.cptr with
      | none => rfl
      | some index =>
          cases found : leafFind s.heap location.c k with
          | none => cases unchanged s.heap location <;> rfl
          | some value =>
              cases unchanged s.heap location with
              | false => rfl
              | true =>
                  obtain ⟨l, there⟩ := leafFind_some found
                  obtain ⟨c, child, held⟩ := Option.bind_eq_some_iff.mp there
                  have here : (erase s.heap).node c = (s.heap.node c).map (Node.map Leaf.erase) :=
                    rfl
                  have stored : find l.keyVals k = some value :=
                    (leafFind_leaf there k).symm.trans found
                  have removed := erase_removeChild s.heap (leaves c l held) stored
                  simp only [if_true, child, Option.bind_some, held, here, Option.map_some,
                    Node.map, ← removed, Memory.link,
                    erase_store]

/-- With the pools forgotten, an attempt is an attempt of art.h. -/
theorem erase_attempt (noValue : V) (s : Memory K V) (op : Op K V)
    (leaves : Leaves Leaf.Ok s.heap) :
    Art.attempt noValue op (erase s.heap) = (erase (attempt noValue op s).1.heap,
      (attempt noValue op s).2) := by
  cases op with
  | insert k v => exact erase_tryInsert noValue k v s
  | remove k => exact erase_tryRemove noValue k s leaves

/-! Runs. -/

/-- The tree holds the pairs of the map, and its leaves know their makers. -/
def Holds (s : Memory K V) (map : K → Option V) : Prop :=
  Leaves Leaf.Ok s.heap ∧ Art.Holds (erase s.heap) map

theorem attempt_simulates (noValue : V) :
    Simulates (attempt (K := K) noValue) noValue Holds fun _ _ => True := by
  rintro s map op ⟨leaves, holds⟩ _
  obtain ⟨next, done, kept⟩ := Art.attempt_simulates noValue (erase s.heap) map op holds trivial
  rw [erase_attempt noValue s op leaves] at done
  obtain ⟨heaps, answer⟩ := Prod.mk.injEq .. ▸ done
  refine ⟨(attempt noValue op s).1, ?_, attempt_leaves noValue s op leaves, ?_⟩
  · rw [← answer]
  · rw [heaps]
    exact kept

theorem Leaf.le_poolOf {n : Nat} (most : n ≤ maxBigLeafSize) : n ≤ (poolOf n).capacity := by
  unfold poolOf
  split
  · exact most
  · split
    · exact Nat.le_of_not_lt ‹_›
    · exact Nat.le_of_not_lt ‹_›

/-- No leaf of the tree outgrows its pool. -/
theorem Holds.size_le {s : Memory K V} {map : K → Option V} (holds : Holds s map) {a : Addr}
    {l : Leaf K V} (there : s.heap.node a = some (.leaf l)) : l.size ≤ l.pool.capacity := by
  obtain ⟨leaves, tree, _⟩ := holds
  have here : (erase s.heap).node a = (s.heap.node a).map (Node.map Leaf.erase) := rfl
  rw [there] at here
  have most : l.size ≤ maxBigLeafSize := (tree.leaves a l.erase here).size_le
  have ok : Leaf.Ok l := leaves a l there
  rw [ok.pool]
  cases l.maker with
  | insert =>
      simp only [Leaf.builtIn, Leaf.insertPool]
      split
      · exact most
      · exact Nat.le_of_not_lt ‹_›
  | remove => exact Leaf.le_poolOf most
  | split => exact Leaf.le_poolOf most

variable (junk : Key) (noValue : V) (rounds : Nat) (ops : List (Op Key V))

theorem run_holds :
    Holds (runOps (attempt noValue) (rounds + 1) ops (empty junk)).1
      (specRun noValue ops fun _ => none).1 ∧
    (runOps (attempt noValue) (rounds + 1) ops (empty junk)).2 =
    (specRun noValue ops fun _ => none).2.map some := by
  refine run_simulates (attempt_simulates noValue) rounds ops ⟨empty_leaves junk, ?_⟩
    (along_always _ _ _)
  have same : erase (empty junk : Memory Key V).heap = emptyTree junk :=
    map_emptyTree Leaf.erase junk
  rw [same]
  exact emptyTree_holds junk

/-- Every call of a run returns what the map returns. -/
theorem medium_refines_map :
    (runOps (attempt noValue) (rounds + 1) ops (empty junk)).2 =
    (specRun noValue ops fun _ => none).2.map some :=
  (run_holds junk noValue rounds ops).2

/-- Whatever pools the calls assume, no leaf ever holds more pairs than its own pool has
room for. -/
theorem leaves_fit (a : Addr) (l : Leaf Key V)
    (there : (runOps (attempt noValue) (rounds + 1) ops (empty junk)).1.heap.node
      a = some (.leaf l)) :
    l.size ≤ l.pool.capacity :=
  (run_holds junk noValue rounds ops).1.size_le there

end SetBench.MediumLeaf
