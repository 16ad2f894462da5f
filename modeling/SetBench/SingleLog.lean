import SetBench.LogEntry
import SetBench.ArtLinks

/-! One child slot of art_singular_log_leaves.h under concurrency. The unlocked
find_location and find of an attempt are one step, the body under the lock of the parent
is another; the parent is not removed. An append changes a leaf in place, every other
write swings the slot to a leaf or a sparse node built aside. Leaves are not used again. -/
namespace SetBench.SingleLog

open Radix KeyVals MapSpec
open ArtThreads (Kind kinds Alternates kinds_append)

variable {K V : Type} [RadixKey K]

def maxSmallLeafSize : Nat := 2

def maxBigLeafSize : Nat := 14

/-- generic_leaf (no log) or generic_log_leaf; the header serves find_location only. -/
structure Leaf (K V : Type) where
  isLog : Bool
  keyVals : List (K × V)
  log : Option (LogEntry K V)

/-! The constructors. Each sets the size by the log entry and fills the array by loops. -/

-- insert_and_include_log and insert_and_exclude_log
def insertLogged (base : List (K × V)) (log : LogEntry K V) (key : K) (value : V) : List (K × V) :=
  if log.isDelete then merge [log.key] [(key, value)] base
  else merge [] (ordered (key, value) log.pair) base

-- CoW add kv pair to leaf, from a non-appendable log leaf
def cowAdd (base : List (K × V)) (log : LogEntry K V) (key : K) (value : V) : List (K × V) :=
  if log.isDelete then
    (if key ≠ log.key then insertLogged base log key value else base).take base.length
  else (insertLogged base log key value).take (base.length + 2)

-- CoW remove a key from log leaf, into a log leaf or a small leaf
def cowRemove (base : List (K × V)) (log : LogEntry K V) (key : K) : List (K × V) :=
  if log.isDelete then (without [log.key, key] base).take (base.length - 2)
  else if log.key = key then base.take base.length
  else (merge [key] [log.pair] base).take base.length

-- new_leaf
def newLeaf (group : (K × V) × List (K × V)) : Leaf K V :=
  ⟨decide (maxSmallLeafSize < (whole group).length), whole group, none⟩

def divide (bytePos : Nat) : List (K × V) → List (Leaf K V)
  | [] => []
  | start :: rest => (splitLoop bytePos start [] rest).map newLeaf

namespace Leaf

def size (l : Leaf K V) : Nat := l.keyVals.length

def find (l : Leaf K V) (k : K) : Option V :=
  ((l.log.bind fun log => log.answer k).getD (KeyVals.find l.keyVals k))

def realSize (l : Leaf K V) (log : LogEntry K V) : Nat :=
  if log.isDelete then l.size - 1 else l.size + 1

/-- The base pairs with the log entry applied. -/
def contents (l : Leaf K V) : List (K × V) :=
  match l.log with
  | none => l.keyVals
  | some log => log.applyTo l.keyVals

end Leaf

/-- What a body does: append to the leaf, or store a new leaf, a sparse node over new
leaves or null in the slot. -/
inductive Outcome (K V : Type) where
  | append (e : LogEntry K V)
  | copy (l : Leaf K V)
  | divide (leaves : List (Leaf K V))
  | clear

-- The locked body of try_insert, with the child it found.
def insertBody (bytePos : Nat) (c : Option (Leaf K V)) (k : K) (v : V) : Outcome K V :=
  match c with
  | none => .copy ⟨false, [(k, v)], none⟩
  | some l =>
      if l.isLog then
        match l.log with
        | none => .append ⟨false, k, v⟩
        | some log =>
            if l.realSize log < maxBigLeafSize then .copy ⟨true, cowAdd l.keyVals log k v, none⟩
            else .divide (divide bytePos (insertLogged l.keyVals log k v))
      else .copy ⟨decide ¬ l.size < maxSmallLeafSize, insert l.keyVals k v, none⟩

-- The locked body of try_remove.
def removeBody (noValue : V) (l : Leaf K V) (k : K) : Outcome K V :=
  if l.isLog then
    match l.log with
    | none => .append ⟨true, k, noValue⟩
    | some log =>
        .copy ⟨decide ¬ l.realSize log - 1 ≤ maxSmallLeafSize, cowRemove l.keyVals log k, none⟩
  else if l.size = 1 then .clear
  else .copy ⟨false, (without [k] l.keyVals).take (l.size - 1), none⟩

/-! Threads over the slot. -/

inductive Slot (K V : Type) where
  | null
  | leaf (id : Nat)
  | inner (leaves : List (Leaf K V))

inductive Thread (K V : Type) where
  | idle
  | run (op : Op K V)
  | found (op : Op K V) (c : Option Nat) (answer : Option V)

/-- `links` is the history of successful calls. -/
structure World (K V : Type) where
  slot : Slot K V
  leaf : Nat → Option (Leaf K V)
  fresh : Nat
  thread : Nat → Thread K V
  links : List (K × Kind)

inductive Event (K V : Type) where
  | call (tid : Nat) (op : Op K V)
  | look (tid : Nat)
  | body (tid bytePos : Nat)
  | lose (tid : Nat)

def initial : World K V := ⟨.null, fun _ => none, 0, fun _ => .idle, []⟩

-- The pointer in the slot; a search goes on below an inner node.
def Slot.pointer : Slot K V → Option (Option Nat)
  | .null => some none
  | .leaf id => some (some id)
  | .inner _ => none

namespace World

def deref (w : World K V) (c : Option Nat) : Option (Leaf K V) := c.bind w.leaf

def findAt (w : World K V) (c : Option Nat) (k : K) : Option V := (w.deref c).bind fun l => l.find k

def goto (w : World K V) (tid : Nat) (thread : Thread K V) : World K V :=
  { w with thread := Function.update w.thread tid thread }

def link (w : World K V) (k : K) (kind : Kind) : World K V :=
  { w with links := w.links ++ [(k, kind)] }

def write (w : World K V) (c : Option Nat) : Outcome K V → World K V
  | .append e =>
      match c with
      | some id =>
          { w with
            leaf := Function.update w.leaf id ((w.leaf id).map fun l => { l with log := some e }) }
      | none => w
  | .copy l =>
      { w with
        slot := .leaf w.fresh
        leaf := Function.update w.leaf w.fresh (some l)
        fresh := w.fresh + 1 }
  | .divide leaves => { w with slot := .inner leaves }
  | .clear => { w with slot := .null }

end World

def opKey : Op K V → K
  | .insert k _ => k
  | .remove k => k

/-- The second half of try_insert and try_remove: under the read lock where the unlocked
find already settled the call, under the lock otherwise. An empty optional retries. -/
def bodyStep (noValue : V) (w : World K V) (tid bytePos : Nat) (op : Op K V) (c : Option Nat)
    (answer : Option V) : World K V :=
  if w.slot.pointer ≠ some c then w.goto tid (.run op)
  else
    match op, answer with
    | .insert k _, some _ =>
        if (w.findAt c k).isSome then w.goto tid .idle else w.goto tid (.run op)
    | .insert k v, none =>
        ((w.write c (insertBody bytePos (w.deref c) k v)).link k .insert).goto tid .idle
    | .remove _, none => w.goto tid .idle
    | .remove k, some _ =>
        match w.deref c with
        | none => w
        | some l =>
            if (l.find k).isSome then ((w.write c (removeBody noValue l k)).link k .remove).goto tid
              .idle
            else (w.write c (removeBody noValue l k)).goto tid (.run op)

def step (noValue : V) (w : World K V) : Event K V → Option (World K V)
  | .call tid op =>
      match w.thread tid with
      | .idle => some (w.goto tid (.run op))
      | _ => none
  | .look tid =>
      match w.thread tid, w.slot.pointer with
      | .run op, some c => some (w.goto tid (.found op c (w.findAt c (opKey op))))
      | _, _ => none
  | .body tid bytePos =>
      match w.thread tid with
      | .found op c answer => some (bodyStep noValue w tid bytePos op c answer)
      | _ => none
  | .lose tid =>
      match w.thread tid with
      | .found op _ _ => some (w.goto tid (.run op))
      | _ => none

/-- Where the body of the thread is about to write, the leaf still answers as the
unlocked find did: nobody has appended an entry for the key in between. -/
def Thread.StillTrue (w : World K V) : Thread K V → Prop
  | .found (.insert k _) c none => w.slot.pointer = some c → (w.findAt c k).isNone = true
  | .found (.remove k) c (some _) => w.slot.pointer = some c → (w.findAt c k).isSome = true
  | _ => True

instance (w : World K V) : (thread : Thread K V) → Decidable (thread.StillTrue w)
  | .found (.insert _ _) _ none => inferInstanceAs (Decidable (_ → _))
  | .found (.remove _) _ (some _) => inferInstanceAs (Decidable (_ → _))
  | .found (.insert _ _) _ (some _) => .isTrue trivial
  | .found (.remove _) _ none => .isTrue trivial
  | .idle => .isTrue trivial
  | .run _ => .isTrue trivial

def StillTrue (w : World K V) : Event K V → Prop
  | .body tid _ => (w.thread tid).StillTrue w
  | _ => True

instance (w : World K V) : (event : Event K V) → Decidable (StillTrue w event)
  | .body tid _ => inferInstanceAs (Decidable ((w.thread tid).StillTrue w))
  | .call _ _ => .isTrue trivial
  | .look _ => .isTrue trivial
  | .lose _ => .isTrue trivial

end SetBench.SingleLog
