import Mathlib
import SetBench.Transition

/-! The persistence protocol of ABTreeOptik (24-abtree-pm-occ/optik_btree.h). A shared
word has a volatile and a persistent value: flush marks the current value, and the same
thread's next sync makes the marked values persistent. Searches load any child slot of
the node they are at; which nodes a restructuring step builds and what it copies into
them is left open, as are the marked flags: a thread that gives up releases its locks.
Nodes are built, flushed and synced before anyone sees them, in one step. -/
namespace SetBench.AbPersist

open Transition

/-- The word arrays of a node: child pointers of an internal node, keys and values of a
leaf. -/
inductive Cell where
  | slot (n i : Nat)
  | key (n i : Nat)
  | val (n i : Nat)
  deriving DecidableEq, Repr

def Cell.node : Cell → Nat
  | .slot n _ | .key n _ | .val n _ => n

/-- A word; the lowest bit of a pointer is its dirty mark. -/
structure Word where
  value : Nat
  dirty : Bool
  deriving DecidableEq, Repr

def clean (value : Nat) : Word := ⟨value, false⟩
def markDirty (value : Nat) : Word := ⟨value, true⟩

/-- What a thread does under its locks. -/
inductive Act where
  | bump (n : Nat)
  | store (c : Cell) (w : Word)
  | flush (c : Cell)
  | sync
  | unlock (n : Nat)
  deriving DecidableEq, Repr

-- The write of insert into an empty place of a leaf.
def insertActs (k v n i : Nat) : List Act :=
  [.bump n, .store (.val n i) (clean v), .flush (.val n i), .sync, .store (.key n i) (clean k),
    .flush (.key n i),
    .bump n, .sync, .unlock n]

-- The write of erase.
def eraseActs (n i : Nat) : List Act :=
  [.bump n, .store (.key n i) (clean 0), .flush (.key n i), .sync, .bump n, .unlock n]

-- A pointer swing: the marked store, the two halves of flushPtr, sync.
def swingActs (g i target : Nat) (also : Option Nat) : List Act :=
  [.store (.slot g i) (markDirty target), .store (.slot g i) (clean target), .flush (.slot g i),
    .sync, .unlock g] ++
    (also.map Act.unlock).toList

/-- `find` stands for contains too; a cleanup walks like any search. -/
inductive Job where
  | find (k : Nat)
  | insert (k v : Nat)
  | erase (k : Nat)
  deriving DecidableEq, Repr

def Job.key : Job → Nat
  | .find k | .insert k _ | .erase k => k

-- A key that erase finds is not an answer yet.
def Job.answers : Job → Bool
  | .find _ | .insert _ _ => true
  | .erase _ => false

/-- Positions: the walk through readUntilFlushed, getKeyIndexValueVersion on a leaf, the
loops of insert and erase under the leaf's lock, and the writes. `parent` is the slot
through which the leaf was reached. -/
inductive Pc where
  | idle
  | walk (job : Job) (parent : Nat × Nat) (n : Nat)
  | version (job : Job) (parent : Nat × Nat) (n : Nat)
  | keys (job : Job) (parent : Nat × Nat) (n ver idx : Nat)
  | value (job : Job) (parent : Nat × Nat) (n ver idx : Nat)
  | check (job : Job) (parent : Nat × Nat) (n ver : Nat) (found : Option (Nat × Nat))
  | lockLeaf (job : Job) (parent : Nat × Nat) (n : Nat)
  | scan (job : Job) (parent : Nat × Nat) (n idx : Nat)
  | empty (k v : Nat) (parent : Nat × Nat) (n idx : Nat)
  | lockParent (g i : Nat) (also : Option Nat)
  | make (g i : Nat) (also : Option Nat)
  | run (rest : List Act)

structure NewNode where
  slots : List Nat
  keys : List Nat
  vals : List Nat

/-- `unflushed` lists, for the reader of the invariant only, the words a thread has
stored and not flushed. -/
structure World where
  mem : Cell → Word
  pmem : Cell → Word
  pending : Nat → List (Cell × Word)
  unflushed : Nat → List Cell
  version : Nat → Nat
  lock : Nat → Option Nat
  fresh : Nat
  pc : Nat → Pc

/-- `load` chooses the child slot, `finish` ends the walk at a leaf, `restructure` starts
a fix at a slot, `make` builds its nodes and `retry` gives up. -/
inductive Event where
  | call (tid : Nat) (job : Job)
  | load (tid i : Nat)
  | finish (tid : Nat)
  | move (tid : Nat)
  | restructure (tid g i : Nat)
  | make (tid : Nat) (nodes : List NewNode) (root : Nat)
  | retry (tid : Nat)

def entry : Nat := 0

def NewNode.word (node : NewNode) : Cell → Word
  | .slot _ i => clean (node.slots.getD i entry)
  | .key _ i => clean (node.keys.getD i 0)
  | .val _ i => clean (node.vals.getD i 0)

/-- The entry points to an empty leaf. -/
def initial : World where
  mem := fun c => match c with
    | .slot 0 0 => clean 1
    | _ => clean 0
  pmem := fun c => match c with
    | .slot 0 0 => clean 1
    | _ => clean 0
  pending := fun _ => []
  unflushed := fun _ => []
  version := fun _ => 0
  lock := fun _ => none
  fresh := 2
  pc := fun _ => .idle

namespace World

def goto (w : World) (tid : Nat) (pc : Pc) : World := { w with pc := Function.update w.pc tid pc }

-- One action of a thread; the rest of its actions follows.
def act (w : World) (tid : Nat) : Act → World
  | .bump n => { w with version := Function.update w.version n (w.version n + 1) }
  | .store c x =>
      { w with
        mem := Function.update w.mem c x
        unflushed := Function.update w.unflushed tid (c :: w.unflushed tid) }
  | .flush c =>
      { w with
        pending := Function.update w.pending tid ((c, w.mem c) :: w.pending tid)
        unflushed := Function.update w.unflushed tid
          ((w.unflushed tid).filter fun other => other ≠ c) }
  | .sync =>
      { w with
        pmem := (w.pending tid).foldr (fun flushed pmem => Function.update pmem flushed.1 flushed.2)
          w.pmem
        pending := Function.update w.pending tid [] }
  | .unlock n => { w with lock := Function.update w.lock n none }

def acquire (w : World) (tid n : Nat) (pc : Pc) : Option World :=
  match w.lock n with
  | none => some ({ w with lock := Function.update w.lock n (some tid) }.goto tid pc)
  | some _ => none

-- The words of nodes numbered from `fresh` on.
def build (w : World) (nodes : List NewNode) (old : Cell → Word) (c : Cell) : Word :=
  if c.node < w.fresh then old c
  else
    match nodes[c.node - w.fresh]? with
    | some node => node.word c
    | none => old c

end World

def moveStep (degree : Nat) (w : World) (tid : Nat) : Pc → Option World
  | .idle | .walk _ _ _ | .make _ _ _ => none
  | .version job parent n =>
      if w.version n % 2 = 1 then some w else some (w.goto tid (.keys job parent n (w.version n) 0))
  | .keys job parent n ver idx =>
      if idx < degree then
        if w.mem (.key n idx) = clean job.key then some (w.goto tid (.value job parent n ver idx))
        else some (w.goto tid (.keys job parent n ver (idx + 1)))
      else some (w.goto tid (.check job parent n ver none))
  | .value job parent n ver idx =>
      some (w.goto tid (.check job parent n ver (some (idx, (w.mem (.val n idx)).value))))
  | .check job parent n ver found =>
      if w.version n = ver then
        match job, found with
        | .find _, _ => some (w.goto tid .idle)
        | .insert _ _, some _ => some (w.goto tid .idle)
        | .insert _ _, none => some (w.goto tid (.lockLeaf job parent n))
        | .erase _, some _ => some (w.goto tid (.lockLeaf job parent n))
        | .erase _, none => some (w.goto tid .idle)
      else some (w.goto tid (.version job parent n))
  | .lockLeaf job parent n => w.acquire tid n (.scan job parent n 0)
  | .scan job parent n idx =>
      if idx < degree then
        if w.mem (.key n idx) = clean job.key then
          match job with
          | .erase _ => some (w.goto tid (.run (eraseActs n idx)))
          | _ => some (w.goto tid (.run [.unlock n]))
        else some (w.goto tid (.scan job parent n (idx + 1)))
      else
        match job with
        | .insert k v => some (w.goto tid (.empty k v parent n 0))
        | _ => some (w.goto tid (.run [.unlock n]))
  | .empty k v parent n idx =>
      if idx < degree then
        if w.mem (.key n idx) = clean 0 then some (w.goto tid (.run (insertActs k v n idx)))
        else some (w.goto tid (.empty k v parent n (idx + 1)))
      else some (w.goto tid (.lockParent parent.1 parent.2 (some n)))
  | .lockParent g i also => w.acquire tid g (.make g i also)
  | .run [] => some (w.goto tid .idle)
  | .run (act :: rest) => some ((w.act tid act).goto tid (.run rest))

def step (degree : Nat) (w : World) : Event → Option World
  | .call tid job =>
      match w.pc tid with
      | .idle => some (w.goto tid (.walk job (entry, 0) entry))
      | _ => none
  | .load tid i =>
      match w.pc tid with
      | .walk job _ n =>
          if (w.mem (.slot n i)).dirty then some w
          else some (w.goto tid (.walk job (n, i) (w.mem (.slot n i)).value))
      | _ => none
  | .finish tid =>
      match w.pc tid with
      | .walk job parent n => some (w.goto tid (.version job parent n))
      | _ => none
  | .move tid => moveStep degree w tid (w.pc tid)
  | .restructure tid g i =>
      match w.pc tid with
      | .idle | .walk _ _ _ =>
          if g < w.fresh then some (w.goto tid (.lockParent g i none)) else none
      | _ => none
  | .make tid nodes root =>
      match w.pc tid with
      | .make g i also =>
          if w.fresh ≤ root ∧ root < w.fresh + nodes.length ∧
              (∀ node ∈ nodes, ∀ p ∈ node.slots, p < w.fresh + nodes.length) then
            some ({ w with
              mem := w.build nodes w.mem
              pmem := w.build nodes w.pmem
              fresh := w.fresh + nodes.length }.goto tid (.run (swingActs g i root also)))
          else none
      | _ => none
  | .retry tid =>
      match w.pc tid with
      | .scan _ _ n _ => some (w.goto tid (.run [.unlock n]))
      | .make g _ also => some (w.goto tid (.run (.unlock g :: (also.map Act.unlock).toList)))
      | _ => none

/-! What a step hands out, and whether it is persistent. -/

inductive Answer where
  | pointer (n i p : Nat)
  | found (n i k v : Nat)
  deriving DecidableEq, Repr

/-- The pointer that a load of readUntilFlushed returns, or the key on account of which
find, contains or a failing tryInsert returns. -/
def answered (degree : Nat) (w : World) : Event → Option Answer
  | .load tid i =>
      match w.pc tid with
      | .walk _ _ n =>
          if (w.mem (.slot n i)).dirty then none else some (.pointer n i (w.mem (.slot n i)).value)
      | _ => none
  | .move tid =>
      match w.pc tid with
      | .check job _ n ver (some (i, v)) =>
          if job.answers ∧ w.version n = ver then some (.found n i job.key v) else none
      | .scan job _ n i =>
          if job.answers ∧ i < degree ∧ w.mem (.key n i) = clean job.key then
            some (.found n i job.key (w.mem (.val n i)).value)
          else none
      | _ => none
  | _ => none

def Persistent (w : World) : Answer → Prop
  | .pointer n i p => w.pmem (.slot n i) = clean p
  | .found n i k v => w.pmem (.key n i) = clean k ∧ (w.pmem (.val n i)).value = v

def Answer.cell : Answer → Cell
  | .pointer n i _ => .slot n i
  | .found n i _ _ => .key n i

-- The words a thread has stored and not yet synced.
def owed (w : World) (tid : Nat) : List Cell := w.unflushed tid ++ (w.pending tid).map Prod.fst

/-- A load that hands out a pointer, or a version check that ends a search with a key,
does not fall between the store of that word and the storing thread's sync. -/
def Outside (degree : Nat) (w : World) (event : Event) : Prop :=
  ∀ answer ∈ answered degree w event, ∀ holder ∈ w.lock answer.cell.node, answer.cell ∉ owed w
    holder

instance (degree : Nat) (w : World) (event : Event) : Decidable (Outside degree w event) := by
  unfold Outside
  infer_instance

end SetBench.AbPersist
