import SetBench.ArtUpdate
import SetBench.MapSpec

/-! art.h under concurrency. A thread runs insert and remove with one access to shared
memory a step: a load of a child pointer or a removed flag, the acquisition or release
of a lock, or a store. Building nodes aside touches nothing shared and goes with the
store that links them. `lockOf` is the hash of the lock table: two nodes may share a lock. -/
namespace SetBench.ArtThreads

open Radix KeyVals MapSpec Art

variable {K V : Type} [RadixKey K]

inductive Pc (V : Type) where
  | find (gp : Option Addr) (p : Addr) (bytePos : Nat)
  | readChild (location : Location) (answer : V)
  | readFlag (location : Location) (answer : V)
  | lock (location : Location)
  | checkFlag (location : Location)
  | checkChild (location : Location)
  | write (location : Location)
  | lockParent (location : Location) (g : Addr)
  | checkParentFlag (location : Location) (g : Addr)
  | checkParentChild (location : Location) (g : Addr)
  | lockNode (location : Location) (g : Addr)
  | mark (location : Location) (g : Addr)
  | copy (location : Location) (g : Addr) (loaded : List (Option Addr))
  | unlock (answer : Option V)

/-- `held` is the stack of open try_lock calls: the lock to release, or `none` for a
re-entered one. -/
inductive Thread (K V : Type) where
  | idle
  | run (op : Op K V) (pc : Pc V) (held : List (Option Nat))

inductive Kind where
  | insert
  | remove
  deriving DecidableEq, Repr

structure World (K V : Type) where
  heap : Heap K (Leaf K V)
  owner : Nat → Option Nat
  thread : Nat → Thread K V
  links : List (K × Kind)

inductive Event (K V : Type) where
  | call (tid : Nat) (op : Op K V)
  | move (tid : Nat)
  | lose (tid : Nat)

def opKey : Op K V → K
  | .insert k _ => k
  | .remove k => k

def opKind : Op K V → Kind
  | .insert _ _ => .insert
  | .remove _ => .remove

def start : Pc V := .find none root 0

def World.goto (w : World K V) (tid : Nat) (op : Op K V) (pc : Pc V) (held : List (Option Nat)) :
    World K V :=
  { w with thread := Function.update w.thread tid (.run op pc held) }

-- The end of one attempt: the call returns, or try_loop starts the next attempt.
def World.finish (w : World K V) (tid : Nat) (op : Op K V) : Option V → World K V
  | some _ => { w with thread := Function.update w.thread tid .idle }
  | none => w.goto tid op start []

-- try_lock_result up to the thunk: take a free lock, re-enter an own one, or fail.
def tryLock (owner : Nat → Option Nat) (id tid : Nat) : Option ((Nat → Option Nat) × Option Nat) :=
  match owner id with
  | none => some (Function.update owner id (some tid), some id)
  | some other => if other = tid then some (owner, none) else none

def release (owner : Nat → Option Nat) : Option Nat → Nat → Option Nat
  | some id => Function.update owner id none
  | none => owner

def childAt (heap : Heap K (Leaf K V)) (a : Addr) (index : Nat) : Option (Option Addr) :=
  match heap.node a with
  | some (.inner p) => some (p.ptr.getD index none)
  | _ => none

def flagAt (heap : Heap K (Leaf K V)) (a : Addr) : Option Bool :=
  match heap.node a with
  | some (.inner p) => some p.removed
  | _ => none

-- get_child(gp, p->key)
def parentSlot (heap : Heap K (Leaf K V)) (g a : Addr) : Option Nat :=
  match heap.node g, heap.node a with
  | some (.inner gp), some (.inner p) => gp.getChild p.key
  | _, _ => none

/-- What a call does with the location it found. The outer `none` is a null pointer; an
answer without a further access is a remove that finds no slot. -/
def dispatch (noValue : V) (heap : Heap K (Leaf K V)) (location : Location) : Op K V → Option (Pc V)
  | .insert k _ =>
      match leafFind heap location.c k with
      | some value => some (.readChild location value)
      | none =>
          match location.cptr with
          | some _ => some (.lock location)
          | none => location.gp.map fun g => .lockParent location g
  | .remove k =>
      match location.cptr with
      | none => some (.unlock (some noValue))
      | some _ =>
          match leafFind heap location.c k with
          | some _ => some (.lock location)
          | none => some (.readChild location noValue)

-- The body under the lock of `p`, its checks passed: the new heap and the answer.
def body (noValue : V) (heap : Heap K (Leaf K V)) (location : Location) (index : Nat) :
    Op K V → Option (Heap K (Leaf K V) × V)
  | .insert k v =>
      (insertChild heap location.c location.bytePos k v).map fun (mid, new) =>
        (mid.store location.p index (some new), noValue)
  | .remove k =>
      match location.c.bind heap.node with
      | some (.leaf l) =>
          (find l.keyVals k).map fun value =>
            let (mid, new) := removeChild heap l k
            (mid.store location.p index new, value)
      | _ => none

section Step

variable (lockOf : Addr → Nat) (noValue : V)

/-- One access of a running thread. -/
def access (w : World K V) (tid : Nat) (op : Op K V) (held : List (Option Nat)) :
    Pc V → Option (World K V)
  | .find gp p bytePos =>
      match findStep w.heap (opKey op) gp p bytePos with
      | none => none
      | some (.inr (c, pos)) => some (w.goto tid op (.find (some p) c pos) held)
      | some (.inl location) =>
          (dispatch noValue w.heap location op).map fun pc => w.goto tid op pc held
  | .readChild location answer => do
      let index ← location.cptr
      let child ← childAt w.heap location.p index
      if child = location.c then some (w.goto tid op (.readFlag location answer) held)
      else some (w.finish tid op none)
  | .readFlag location answer => do
      let removed ← flagAt w.heap location.p
      if removed then some (w.finish tid op none) else some (w.finish tid op (some answer))
  | .lock location =>
      match tryLock w.owner (lockOf location.p) tid with
      | none => some (w.finish tid op none)
      | some (owner, entry) =>
          some ({ w with owner := owner }.goto tid op (.checkFlag location) (entry :: held))
  | .checkFlag location => do
      let removed ← flagAt w.heap location.p
      if removed then some (w.goto tid op (.unlock none) held)
      else some (w.goto tid op (.checkChild location) held)
  | .checkChild location => do
      let index ← location.cptr
      let child ← childAt w.heap location.p index
      if child = location.c then some (w.goto tid op (.write location) held)
      else some (w.goto tid op (.unlock none) held)
  | .write location => do
      let index ← location.cptr
      let (heap, answer) ← body noValue w.heap location index op
      some ({ w with heap := heap, links := w.links ++ [(opKey op, opKind op)] }.goto tid op
        (.unlock (some answer)) held)
  | .lockParent location g =>
      match tryLock w.owner (lockOf g) tid with
      | none => some (w.finish tid op none)
      | some (owner, entry) =>
          some ({ w with owner := owner }.goto tid op (.checkParentFlag location g) (entry :: held))
  | .checkParentFlag location g => do
      let removed ← flagAt w.heap g
      if removed then some (w.goto tid op (.unlock none) held)
      else some (w.goto tid op (.checkParentChild location g) held)
  | .checkParentChild location g => do
      let index ← parentSlot w.heap g location.p
      let child ← childAt w.heap g index
      if child = some location.p then some (w.goto tid op (.lockNode location g) held)
      else some (w.goto tid op (.unlock none) held)
  | .lockNode location g =>
      match tryLock w.owner (lockOf location.p) tid with
      | none => some (w.goto tid op (.unlock none) held)
      | some (owner, entry) =>
          some ({ w with owner := owner }.goto tid op (.mark location g) (entry :: held))
  | .mark location g =>
      match w.heap.node location.p with
      | some (.inner p) =>
          if (p.getChild (opKey op)).isSome then some (w.goto tid op (.unlock none) held)
          else some ({ w with heap := w.heap.setRemoved location.p }.goto tid op
            (.copy location g []) held)
      | _ => none
  | .copy location g loaded =>
      match w.heap.node location.p, op with
      | some (.inner p), .insert k v =>
          if loaded.length < p.ptr.length then
            some (w.goto tid op (.copy location g (loaded ++ [p.ptr.getD loaded.length none])) held)
          else do
            let index ← parentSlot w.heap g location.p
            let heap := swingCopy maxSparseSize w.heap g index p loaded k (Leaf.single k v)
            some ({ w with heap := heap, links := w.links ++ [(k, Kind.insert)] }.goto tid op
              (.unlock (some noValue)) held)
      | _, _ => none
  | .unlock answer =>
      match held with
      | [] => some (w.finish tid op answer)
      | entry :: rest =>
          some ({ w with owner := release w.owner entry }.goto tid op (.unlock answer) rest)

/-- A try_lock that loses its compare-and-swap fails although the lock may be free. -/
def lose (w : World K V) (tid : Nat) : Option (World K V) :=
  match w.thread tid with
  | .run op (.lock _) [] => some (w.finish tid op none)
  | .run op (.lockParent _ _) [] => some (w.finish tid op none)
  | .run op (.lockNode _ _) held => some (w.goto tid op (.unlock none) held)
  | _ => none

def step (w : World K V) : Event K V → Option (World K V)
  | .call tid op =>
      match w.thread tid with
      | .idle => some (w.goto tid op start [])
      | _ => none
  | .move tid =>
      match w.thread tid with
      | .idle => none
      | .run op pc held => access lockOf noValue w tid op held pc
  | .lose tid => lose w tid

end Step

def World.initial (junk : K) : World K V := ⟨emptyTree junk, fun _ => none, fun _ => .idle, []⟩

end SetBench.ArtThreads
