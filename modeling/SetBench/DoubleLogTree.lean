import SetBench.DoubleLogHeap
import SetBench.DoubleLogLeaf
import SetBench.MapSpec

/-! try_insert and try_remove of art_double_log_leaves.h, one attempt at a time. A split
takes its byte position from the search, which compares with the header key of the leaf
only; the pairs that were appended may leave that key earlier. -/
namespace SetBench.DoubleLog

open Radix KeyVals Art MapSpec

variable {K V : Type} [RadixKey K]

def maxSparseSize : Nat := 17

-- The pairs of the split paths, sorted.
def Leaf.pairsWith (l : Leaf K V) (k : K) (v : V) : List (K × V) := sort (l.contents ++ [(k, v)])

def Leaf.pairsWithout (l : Leaf K V) (k : K) : List (K × V) :=
  sort (l.contents.filter fun kv => kv.1 ≠ k)

-- `*cptr = new`
def link (p : Addr) (index : Nat) (built : Heap K (Leaf K V) × Addr) : Heap K (Leaf K V) :=
  built.1.store p index (some built.2)

-- The division of sorted pairs into leaves under a new sparse node.
def splitPairs (heap : Heap K (Leaf K V)) (bytePos : Nat) :
    List (K × V) → Option (Heap K (Leaf K V) × Addr)
  | [] => none
  | start :: rest => some (splitLeaf heap bytePos start.1 (Leaf.divide bytePos start rest))

/-- The body of try_insert under the lock of `p`. The key is absent, so the second look
into a log leaf finds nothing either. -/
def insertBody (heap : Heap K (Leaf K V)) (location : Location) (index : Nat) (k : K) (v : V) :
    Option (Heap K (Leaf K V)) :=
  match location.c with
  | none => some (link location.p index (heap.alloc (.leaf (.single k v))))
  | some c =>
      match heap.node c with
      | none => none
      | some (.inner q) =>
          some (link location.p index (cutEdge heap c q.key location.bytePos (.single k v) k))
      | some (.leaf l) =>
          if l.isLog then
            match l.log, l.secondLog with
            | some log, some secondLog =>
                if l.realSize < maxBigLeafSize then
                  some (link location.p index
                    (heap.alloc (.leaf (.addLogged location.bytePos l log secondLog k v))))
                else (splitPairs heap location.bytePos (l.pairsWith k v)).map
                  (link location.p index)
            | _, _ => some (heap.putLeaf c (l.append ⟨false, k, v⟩))
          else if l.size < maxSmallLeafSize then
            some (link location.p index (heap.alloc (.leaf (.add false location.bytePos l k v))))
          else some (link location.p index (heap.alloc (.leaf (.add true location.bytePos l k v))))

/-- The body of try_remove under the lock of `p`, for the leaf `l` at `c`. -/
def removeBody (noValue : V) (heap : Heap K (Leaf K V)) (location : Location) (index : Nat)
    (c : Addr) (l : Leaf K V) (k : K) : Option (Heap K (Leaf K V)) :=
  if l.isLog then
    match l.log, l.secondLog with
    | some log, some secondLog =>
        let newSize := l.realSize - 1
        if newSize ≤ maxSmallLeafSize then
          if newSize = 0 then some (heap.store location.p index none)
          else some (link location.p index
            (heap.alloc (.leaf (.rebuilt false l (cowRemoveSmall l.keyVals log secondLog k)))))
        else if newSize < maxBigLeafSize then
          some (link location.p index
            (heap.alloc (.leaf (.rebuilt true l (cowRemove l.keyVals log secondLog k)))))
        else (splitPairs heap location.bytePos (l.pairsWithout k)).map (link location.p index)
    | _, _ => some (heap.putLeaf c (l.append ⟨true, k, noValue⟩))
  else if l.size = 1 then some (heap.store location.p index none)
  else some (link location.p index (heap.alloc (.leaf (l.remove k))))

-- The leaf where find_location stopped.
def leafAt (heap : Heap K (Leaf K V)) (c : Option Addr) : Option (Addr × Leaf K V) :=
  match c with
  | none => none
  | some c =>
      match heap.node c with
      | some (.leaf l) => some (c, l)
      | _ => none

def leafFind (heap : Heap K (Leaf K V)) (c : Option Addr) (k : K) : Option V :=
  (leafAt heap c).bind fun found => found.2.find k

/-- One attempt of an insert; no value is a retry. add_child retires the node it copied. -/
def tryInsert (noValue : V) (k : K) (v : V) (heap : Heap K (Leaf K V)) :
    Heap K (Leaf K V) × Option V :=
  match findLocation heap k with
  | none => (heap, none)
  | some location =>
      match leafFind heap location.c k with
      | some value => if unchanged heap location then (heap, some value) else (heap, none)
      | none =>
          match location.cptr with
          | some index =>
              if unchanged heap location then
                match insertBody heap location index k v with
                | some after => (after, some noValue)
                | none => (heap, none)
              else (heap, none)
          | none =>
              match location.gp with
              | none => (heap, none)
              | some gp =>
                  match addChild maxSparseSize heap gp location.p k (Leaf.single k v) with
                  | some after => (after.retire location.p, some noValue)
                  | none => (heap, none)

/-- One attempt of a remove. -/
def tryRemove (noValue : V) (k : K) (heap : Heap K (Leaf K V)) : Heap K (Leaf K V) × Option V :=
  match findLocation heap k with
  | none => (heap, none)
  | some location =>
      match location.cptr with
      | none => (heap, some noValue)
      | some index =>
          match leafFind heap location.c k with
          | none => if unchanged heap location then (heap, some noValue) else (heap, none)
          | some value =>
              if unchanged heap location then
                match (leafAt heap location.c).bind fun found =>
                  removeBody noValue heap location index found.1 found.2 k with
                | some after => (after, some value)
                | none => (heap, none)
              else (heap, none)

def attempt (noValue : V) : Op K V → Heap K (Leaf K V) → Heap K (Leaf K V) × Option V
  | .insert k v => tryInsert noValue k v
  | .remove k => tryRemove noValue k

/-! Which calls split a leaf, and what they divide: a condition on the tree before the
call. -/

/-- The byte position and the sorted pairs of a split. -/
def handed (heap : Heap K (Leaf K V)) (op : Op K V) : Option (Nat × List (K × V)) :=
  let key := match op with
    | .insert k _ => k
    | .remove k => k
  match findLocation heap key with
  | none => none
  | some location =>
      match leafAt heap location.c with
      | none => none
      | some (_, l) =>
          if l.isLog && !l.isAppendable then
            match op, l.find key with
            | .insert k v, none =>
                if l.realSize < maxBigLeafSize then none
                else some (location.bytePos, l.pairsWith k v)
            | .remove k, some _ =>
                if l.realSize - 1 < maxBigLeafSize then none
                else some (location.bytePos, l.pairsWithout k)
            | _, _ => none
          else none

/-- The pairs of a split agree before the byte that divides them, and no fifteen
neighbours agree at it. -/
def Separable (heap : Heap K (Leaf K V)) (op : Op K V) : Prop :=
  ∀ bytePos pairs, handed heap op = some (bytePos, pairs) →
    (∀ one ∈ pairs, ∀ other ∈ pairs, Agree one.1 other.1 bytePos) ∧ Leaf.Thin bytePos pairs

theorem separable_iff (heap : Heap K (Leaf K V)) (op : Op K V) : Separable heap op ↔
    ∀ found ∈ handed heap op, (∀ one ∈ found.2, ∀ other ∈ found.2, Agree one.1 other.1 found.1) ∧
      Leaf.Thin found.1 found.2 := by
  constructor
  · intro separable found held
    exact separable found.1 found.2 held
  · intro all bytePos pairs held
    exact all (bytePos, pairs) held

instance (heap : Heap K (Leaf K V)) (op : Op K V) : Decidable (Separable heap op) :=
  decidable_of_iff _ (separable_iff heap op).symm

end SetBench.DoubleLog
