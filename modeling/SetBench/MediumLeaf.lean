import SetBench.ArtUpdate
import SetBench.MapSpec

/-! art_medium_leaves.h: the tree of art.h with a third pool, for leaves of 3 to 6 pairs.
A leaf stores its size and not its pool, so every branch of the calls derives the pool
from the size. Each attempt logs the pools it assumes beside the pools the leaves came
from. -/
namespace SetBench.MediumLeaf

open Radix KeyVals Art MapSpec

variable {K V : Type} [RadixKey K]

def maxMediumLeafSize : Nat := 6

inductive Pool where
  | small
  | medium
  | big
  deriving DecidableEq, Repr

def Pool.capacity : Pool → Nat
  | .small => maxSmallLeafSize
  | .medium => maxMediumLeafSize
  | .big => maxBigLeafSize

/-- The kind of call that built a leaf. -/
inductive Maker where
  | insert
  | remove
  | split
  deriving DecidableEq, Repr

/-- A generic_leaf. The code stores neither `pool` nor `maker`: they record the pool that
new_obj was called on and the call that did it. -/
structure Leaf (K V : Type) where
  pool : Pool
  maker : Maker
  key : K
  byteNum : Nat
  keyVals : List (K × V)

namespace Leaf

def size (l : Leaf K V) : Nat := l.keyVals.length

-- create singleton leaf
def single (k : K) (v : V) : Leaf K V := ⟨.small, .insert, k, RadixKey.size K, [(k, v)]⟩

-- add to leaf
def add (pool : Pool) (bytePos : Nat) (l : Leaf K V) (k : K) (v : V) : Leaf K V :=
  ⟨pool, .insert, l.key, bytePos, insert l.keyVals k v⟩

-- remove from leaf; the result of a leaf of size one is never built
def remove (pool : Pool) (l : Leaf K V) (k : K) : Leaf K V :=
  match l.keyVals.filter fun kv => kv.1 ≠ k with
  | [] => ⟨pool, .remove, l.key, l.byteNum, []⟩
  | start :: rest => ⟨pool, .remove, start.1, firstDiff l.byteNum start rest, start :: rest⟩

-- The pool that new_leaf takes `n` pairs to.
def poolOf (n : Nat) : Pool :=
  if maxMediumLeafSize < n then .big else if maxSmallLeafSize < n then .medium else .small

-- new_leaf, with the multi-pair constructor
def newLeaf (bytePos : Nat) (start : K × V) (rest : List (K × V)) : Leaf K V :=
  ⟨poolOf (rest.length + 1), .split, start.1, firstDiff bytePos start rest, start :: rest⟩

-- The leaves that replace a full leaf.
def divide (bytePos : Nat) (start : K × V) (rest : List (K × V)) : List (Leaf K V) :=
  (splitLoop bytePos start [] rest).map fun group => newLeaf (bytePos + 1) group.1 group.2

end Leaf

instance : RadixLeaf K V (Leaf K V) where
  key := Leaf.key
  byteNum := Leaf.byteNum
  pairs := Leaf.keyVals

inductive Decision where
  | capacity
  | flush
  | retire
  deriving DecidableEq, Repr

/-- A point of the code that treats a leaf from the pool `allocated` as one from `taken`. -/
structure Use where
  decision : Decision
  allocated : Pool
  taken : Pool
  deriving DecidableEq, Repr

/-- What a call builds aside: the heap, the pointer it will store, and its uses of leaves. -/
structure Change (K V : Type) where
  heap : Heap K (Leaf K V)
  child : Option Addr
  uses : List Use

-- The branches that put one new leaf in the place of `l`, which they retire as `taken`.
def replace (heap : Heap K (Leaf K V)) (taken : Pool) (l new : Leaf K V) : Change K V :=
  let (heap, c) := heap.alloc (.leaf new)
  ⟨heap, some c, [⟨.capacity, l.pool, taken⟩, ⟨.flush, new.pool, new.pool⟩,
    ⟨.retire, l.pool, taken⟩]⟩

-- `i - start > max_small_leaf_size`, for each leaf of a split
def flushPiece (l : Leaf K V) : Use :=
  ⟨.flush, l.pool, if maxSmallLeafSize < l.size then .big else .small⟩

/-- What try_insert links in the place of `c`. -/
def insertChild (heap : Heap K (Leaf K V)) (c : Option Addr) (bytePos : Nat) (k : K) (v : V) :
    Option (Change K V) :=
  match c with
  | none =>
      let (heap, c) := heap.alloc (.leaf (.single k v))
      some ⟨heap, some c, [⟨.flush, (Leaf.single k v).pool, .small⟩]⟩
  | some c =>
      match heap.node c with
      | none => none
      | some (.leaf l) =>
          if l.size < maxSmallLeafSize then some (replace heap .small l (.add .small bytePos l k v))
          else if l.size = maxSmallLeafSize then
            some (replace heap .small l (.add .big bytePos l k v))
          else if l.size < maxBigLeafSize then some (replace heap .big l (.add .big bytePos l k v))
          else
            match insert l.keyVals k v with
            | [] => none
            | start :: rest =>
                let leaves := Leaf.divide bytePos start rest
                let (heap, c) := splitLeaf heap bytePos start.1 leaves
                some ⟨heap, some c, ⟨.capacity, l.pool, .big⟩ :: leaves.map
                  flushPiece ++ [⟨.retire, l.pool, .big⟩]⟩
      | some (.inner q) =>
          let (heap, c) := cutEdge heap c q.key bytePos (.single k v) k
          some ⟨heap, some c, [⟨.flush, (Leaf.single k v).pool, .small⟩]⟩

/-- What try_remove leaves in the place of the leaf `l`. -/
def removeChild (heap : Heap K (Leaf K V)) (l : Leaf K V) (k : K) : Change K V :=
  if l.size = 1 then ⟨heap, none, [⟨.capacity, l.pool, .small⟩, ⟨.retire, l.pool, .small⟩]⟩
  else if maxMediumLeafSize + 1 < l.size then replace heap .big l (.remove .big l k)
  else if l.size = maxMediumLeafSize + 1 then replace heap .big l (.remove .medium l k)
  else if maxSmallLeafSize + 1 < l.size then replace heap .medium l (.remove .medium l k)
  else if l.size = maxSmallLeafSize + 1 then replace heap .medium l (.remove .small l k)
  else replace heap .small l (.remove .small l k)

-- The search in the child where find_location stopped, when that is a leaf.
def leafFind (heap : Heap K (Leaf K V)) (c : Option Addr) (k : K) : Option V :=
  match c.bind heap.node with
  | some (.leaf l) => find l.keyVals k
  | _ => none

/-- The tree, and the uses of leaves so far. -/
structure Memory (K V : Type) where
  heap : Heap K (Leaf K V)
  uses : List Use

-- The tree of the constructor.
def empty (junk : K) : Memory K V := ⟨emptyTree junk, []⟩

-- The store into the slot of the search, which ends a call.
def Memory.link (s : Memory K V) (p : Addr) (index : Nat) (change : Change K V) : Memory K V :=
  ⟨change.heap.store p index change.child, s.uses ++ change.uses⟩

/-- One attempt of an insert; no value is a retry. -/
def tryInsert (noValue : V) (k : K) (v : V) (s : Memory K V) : Memory K V × Option V :=
  match findLocation s.heap k with
  | none => (s, none)
  | some location =>
      match leafFind s.heap location.c k with
      | some value => if unchanged s.heap location then (s, some value) else (s, none)
      | none =>
          match location.cptr with
          | some index =>
              if unchanged s.heap location then
                match insertChild s.heap location.c location.bytePos k v with
                | some change => (s.link location.p index change, some noValue)
                | none => (s, none)
              else (s, none)
          | none =>
              match location.gp with
              | none => (s, none)
              | some gp =>
                  match addChild maxSparseSize s.heap gp location.p k (Leaf.single k v) with
                  | some after =>
                      (⟨after, s.uses ++ [⟨.flush, (Leaf.single k v).pool, .small⟩]⟩, some noValue)
                  | none => (s, none)

/-- One attempt of a remove. -/
def tryRemove (noValue : V) (k : K) (s : Memory K V) : Memory K V × Option V :=
  match findLocation s.heap k with
  | none => (s, none)
  | some location =>
      match location.cptr with
      | none => (s, some noValue)
      | some index =>
          match leafFind s.heap location.c k with
          | none => if unchanged s.heap location then (s, some noValue) else (s, none)
          | some value =>
              if unchanged s.heap location then
                match location.c.bind s.heap.node with
                | some (.leaf l) => (s.link location.p index (removeChild s.heap l k), some value)
                | _ => (s, none)
              else (s, none)

def attempt (noValue : V) : Op K V → Memory K V → Memory K V × Option V
  | .insert k v => tryInsert noValue k v
  | .remove k => tryRemove noValue k

end SetBench.MediumLeaf
