import SetBench.DoubleLogHeap
import SetBench.DoubleLogLeaf
import SetBench.SingleLogReconcile

/-! The tree of art_singular_log_leaves.h, one attempt at a time: what a body of SingleLog
decides for a slot, written to the heap with the headers of the new leaves. -/
namespace SetBench.SingleLog

open Radix KeyVals Art MapSpec

variable {K V : Type} [RadixKey K]

def maxSparseSize : Nat := 16

/-- A leaf with its header. -/
structure TreeLeaf (K V : Type) where
  leaf : Leaf K V
  key : K
  byteNum : Nat

instance : RadixLeaf K V (TreeLeaf K V) where
  key := TreeLeaf.key
  byteNum := TreeLeaf.byteNum
  pairs := fun m => m.leaf.contents

namespace TreeLeaf

-- create singleton leaf
def single (k : K) (v : V) : TreeLeaf K V := ⟨⟨false, [(k, v)], none⟩, k, RadixKey.size K⟩

-- The header of new_leaf and of the removing constructors: the first key and first_diff.
def headed (bytePos : Nat) (key : K) (l : Leaf K V) : TreeLeaf K V :=
  match l.keyVals with
  | [] => ⟨l, key, bytePos⟩
  | start :: rest => ⟨l, start.1, firstDiff bytePos start rest⟩

def append (m : TreeLeaf K V) (e : LogEntry K V) : TreeLeaf K V :=
  { m with leaf := { m.leaf with log := some e } }

end TreeLeaf

-- `*cptr = new`
def link (p : Addr) (index : Nat) (built : Heap K (TreeLeaf K V) × Addr) : Heap K (TreeLeaf K V) :=
  built.1.store p index (some built.2)

-- The sparse node over new leaves takes the key of the first.
def sparseOver (heap : Heap K (TreeLeaf K V)) (bytePos : Nat) :
    List (TreeLeaf K V) → Option (Heap K (TreeLeaf K V) × Addr)
  | [] => none
  | first :: rest => some (splitLeaf heap bytePos first.key (first :: rest))

/-- The write of try_insert under the lock of `p`. The constructors that add to a leaf
keep its header key and take the byte position of the search. -/
def writeInsert (heap : Heap K (TreeLeaf K V)) (location : Location) (index : Nat) (k : K) (v : V) :
    Option (Heap K (TreeLeaf K V)) :=
  match location.c with
  | none => some (link location.p index (heap.alloc (.leaf (.single k v))))
  | some c =>
      match heap.node c with
      | none => none
      | some (.inner q) =>
          some (link location.p index (cutEdge heap c q.key location.bytePos (.single k v) k))
      | some (.leaf m) =>
          match insertBody location.bytePos (some m.leaf) k v with
          | .append e => some (heap.putLeaf c (m.append e))
          | .copy l =>
              some (link location.p index (heap.alloc (.leaf ⟨l, m.key, location.bytePos⟩)))
          | .divide leaves =>
              (sparseOver heap location.bytePos
                (leaves.map fun l => .headed (location.bytePos + 1) m.key l)).map
                (link location.p index)
          | .clear => none

/-- The write of try_remove, for the leaf `m` at `c`. -/
def writeRemove (noValue : V) (heap : Heap K (TreeLeaf K V)) (location : Location) (index : Nat)
    (c : Addr) (m : TreeLeaf K V) (k : K) : Option (Heap K (TreeLeaf K V)) :=
  match removeBody noValue m.leaf k with
  | .append e => some (heap.putLeaf c (m.append e))
  | .copy l => some (link location.p index (heap.alloc (.leaf (.headed m.byteNum m.key l))))
  | .clear => some (heap.store location.p index none)
  | .divide _ => none

-- The leaf where find_location stopped.
def leafAt (heap : Heap K (TreeLeaf K V)) (c : Option Addr) : Option (Addr × TreeLeaf K V) :=
  match c with
  | none => none
  | some c =>
      match heap.node c with
      | some (.leaf m) => some (c, m)
      | _ => none

def leafFind (heap : Heap K (TreeLeaf K V)) (c : Option Addr) (k : K) : Option V :=
  (leafAt heap c).bind fun found => found.2.leaf.find k

/-- One attempt of an insert; no value is a retry. add_child retires the node it copied. -/
def tryInsert (noValue : V) (k : K) (v : V) (heap : Heap K (TreeLeaf K V)) :
    Heap K (TreeLeaf K V) × Option V :=
  match findLocation heap k with
  | none => (heap, none)
  | some location =>
      match leafFind heap location.c k with
      | some value => if unchanged heap location then (heap, some value) else (heap, none)
      | none =>
          match location.cptr with
          | some index =>
              if unchanged heap location then
                match writeInsert heap location index k v with
                | some after => (after, some noValue)
                | none => (heap, none)
              else (heap, none)
          | none =>
              match location.gp with
              | none => (heap, none)
              | some gp =>
                  match addChild maxSparseSize heap gp location.p k (TreeLeaf.single k v) with
                  | some after => (after.retire location.p, some noValue)
                  | none => (heap, none)

/-- One attempt of a remove. -/
def tryRemove (noValue : V) (k : K) (heap : Heap K (TreeLeaf K V)) :
    Heap K (TreeLeaf K V) × Option V :=
  match findLocation heap k with
  | none => (heap, none)
  | some location =>
      match location.cptr with
      | none => (heap, some noValue)
      | some index =>
          match leafFind heap location.c k with
          | none => if unchanged heap location then (heap, some noValue) else (heap, none)
          | some value =>
              if unchanged heap location then
                match (leafAt heap location.c).bind fun found =>
                  writeRemove noValue heap location index found.1 found.2 k with
                | some after => (after, some value)
                | none => (heap, none)
              else (heap, none)

def attempt (noValue : V) : Op K V → Heap K (TreeLeaf K V) → Heap K (TreeLeaf K V) × Option V
  | .insert k v => tryInsert noValue k v
  | .remove k => tryRemove noValue k

/-- The leaf that an insert of `k` divides, and the byte position. -/
def handed (heap : Heap K (TreeLeaf K V)) : Op K V → Option (Nat × List (K × V))
  | .remove _ => none
  | .insert k v =>
      (findLocation heap k).bind fun location => (leafAt heap location.c).bind fun found =>
        match found.2.leaf.log with
        | none => none
        | some log =>
            if found.2.leaf.isLog = true ∧ found.2.leaf.find k = none ∧
              ¬ found.2.leaf.realSize log < maxBigLeafSize then
              some (location.bytePos, insertLogged found.2.leaf.keyVals log k v)
            else none

/-- The pairs of a split agree before the byte that divides them, and no fifteen
neighbours agree at it. -/
def Separable (heap : Heap K (TreeLeaf K V)) (op : Op K V) : Prop :=
  ∀ found ∈ handed heap op, (∀ one ∈ found.2, ∀ other ∈ found.2, Agree one.1 other.1 found.1) ∧
    DoubleLog.Leaf.Thin found.1 found.2

instance (heap : Heap K (TreeLeaf K V)) (op : Op K V) : Decidable (Separable heap op) :=
  inferInstanceAs (Decidable (∀ found ∈ handed heap op, _))

end SetBench.SingleLog
