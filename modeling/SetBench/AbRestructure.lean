import SetBench.AbPersist

/-! The restructuring of ABTreeOptik with its locks, marks and dirty pointers
(24-abtree-pm-occ/optik_btree.h). Keys are left open: a search goes to any child of the
node it is at, and whether a leaf holds the key is chosen by the event, so every run of
the code is a run here. Nodes are not freed. -/
namespace SetBench.AbRestructure

open Transition
open AbPersist (Word clean markDirty entry)

/-- SearchInfo. -/
structure Info where
  gParent : Option Word
  parent : Word
  parentIndex : Nat
  node : Word
  nodeIndex : Nat

inductive Job where
  | find
  | insert
  | erase
  | cleanup
  deriving DecidableEq

-- The three ways nodes are replaced: the overflow of insert, fixTagViolation,
-- fixUnderfullViolation.
inductive Fix where
  | overflow (info : Info)
  | tag (info : Info)
  | underfull (info : Info) (sibling : Word)

/-- One step of a locking sequence; all but `acquire` return early when they fail. -/
inductive Check where
  | acquire (p : Option Word)
  | unmarked (p : Option Word)
  | light (p : Word)
  | weighed (p : Word)

inductive Act where
  | store (g : Word) (i : Nat) (x : Word)
  | mark (p : Word)
  | unlock (p : Word)

/-- `root` is the second read of entry->ptrs[0] in cleanup, `next` the loop's end, `run` the
writes of a replacement or the releases of an early return, followed by `after`. -/
inductive Pc where
  | idle
  | start (job : Job)
  | at (job : Job) (info : Info)
  | root (info : Info)
  | next (info : Info)
  | sibling (info : Info)
  | lockLeaf (job : Job) (info : Info)
  | leaf (job : Job) (info : Info)
  | locking (fix : Fix) (todo : List Check) (held : List Word)
  | run (acts : List Act) (after : Option Job)

structure World where
  leaf : Nat → Bool
  weight : Nat → Bool
  size : Nat → Nat
  slot : Nat → Nat → Word
  marked : Nat → Bool
  lock : Nat → Option Nat
  fresh : Nat
  pc : Nat → Pc

inductive Event where
  | call (tid : Nat) (job : Job)
  | load (tid i : Nat)
  | move (tid : Nat)
  | answer (tid : Nat)
  | leaf (tid : Nat) (present : Bool)

structure NewNode where
  leaf : Bool
  weight : Bool
  size : Nat
  ptrs : List Word

/-- The entry points to an empty leaf. -/
def initial : World where
  leaf := fun n => decide (n = 1)
  weight := fun _ => true
  size := fun n => if n = entry then 1 else 0
  slot := fun _ _ => clean 1
  marked := fun _ => false
  lock := fun _ => none
  fresh := 2
  pc := fun _ => .idle

-- The constants a and b of the tree.
def low (degree : Nat) : Nat := max (degree / 4) 2

namespace Info

def siblingIndex (info : Info) : Nat := if 0 < info.nodeIndex then info.nodeIndex - 1 else 1

def left (info : Info) (sibling : Word) : Word :=
  if info.siblingIndex < info.nodeIndex then sibling else info.node
def right (info : Info) (sibling : Word) : Word :=
  if info.siblingIndex < info.nodeIndex then info.node else sibling
def leftIndex (info : Info) : Nat :=
  if info.siblingIndex < info.nodeIndex then info.siblingIndex else info.nodeIndex
def rightIndex (info : Info) : Nat :=
  if info.siblingIndex < info.nodeIndex then info.nodeIndex else info.siblingIndex

def down (info : Info) (i : Nat) (child : Word) : Info :=
  ⟨some info.parent, info.node, info.nodeIndex, child, i⟩

end Info

namespace Fix

def checks : Fix → List Check
  | .overflow info => [.acquire (some info.parent), .unmarked (some info.parent)]
  | .tag info =>
      [.acquire (some info.node), .unmarked (some info.node), .acquire (some info.parent),
        .unmarked (some info.parent),
        .acquire info.gParent, .unmarked info.gParent]
  | .underfull info sibling =>
      [.acquire (some (info.left sibling)), .acquire (some (info.right sibling)), .light info.node,
        .unmarked (some info.node),
        .unmarked (some sibling), .acquire (some info.parent), .unmarked (some info.parent),
          .acquire info.gParent,
        .unmarked info.gParent, .weighed sibling]

-- Where the new nodes are hung in.
def target : Fix → Option Word × Nat
  | .overflow info => (some info.parent, info.nodeIndex)
  | .tag info | .underfull info _ => (info.gParent, info.parentIndex)

def replaced : Fix → List Word
  | .overflow info => [info.node]
  | .tag info => [info.node, info.parent]
  | .underfull info sibling => [info.node, info.parent, sibling]

-- An early return: RETRY of insert, `goto RETRY` of cleanup.
def again : Fix → Job
  | .overflow _ => .insert
  | .tag _ | .underfull _ _ => .cleanup

end Fix

namespace World

def goto (w : World) (tid : Nat) (pc : Pc) : World := { w with pc := Function.update w.pc tid pc }

def setSize (w : World) (n size : Nat) : World := { w with size := Function.update w.size n size }

def children (w : World) (p : Word) : List Word :=
  (List.range (w.size p.value)).map (w.slot p.value)

-- The children of the parent with the tagged node's two in its place.
def spliced (w : World) (info : Info) : List Word :=
  (w.children info.parent).take info.nodeIndex ++ w.children
  info.node ++ (w.children info.parent).drop (info.nodeIndex + 1)

/-- The new nodes, in the order of their creation; the last one is hung into the tree. -/
def replacement (degree : Nat) (w : World) : Fix → List NewNode
  | .overflow info =>
      [⟨true, true, (degree + 1) / 2, []⟩, ⟨true, true, degree + 1 - (degree + 1) / 2, []⟩,
        ⟨false, decide (info.parent = clean entry), 2, [clean w.fresh, clean (w.fresh + 1)]⟩]
  | .tag info =>
      let size := w.size info.parent.value + w.size info.node.value - 1
      let ptrs := w.spliced info
      -- Absorb, or Split.
      if size ≤ degree then [⟨false, true, size, ptrs⟩]
      else
        [⟨false, true, size / 2, ptrs.take (size / 2)⟩,
          ⟨false, true, size - size / 2, ptrs.drop (size / 2)⟩,
          ⟨false, decide (info.gParent = some (clean entry)), 2,
            [clean w.fresh, clean (w.fresh + 1)]⟩]
  | .underfull info sibling =>
      let left := info.left sibling
      let right := info.right sibling
      let psize := w.size info.parent.value
      let size := w.size left.value + w.size right.value
      let ptrs := w.children left ++ w.children right
      if size < 2 * low degree then
        -- AbsorbSibling, with RootAbsorb.
        let newNode : NewNode := if w.leaf left.value then ⟨true, true, size, []⟩
          else ⟨false, true, size, ptrs⟩
        if info.gParent = some (clean entry) ∧ psize = 2 then [newNode]
        else
          [newNode, ⟨false, true, psize - 1,
            (w.children info.parent).take info.leftIndex ++ clean
            w.fresh :: (w.children info.parent).drop (info.leftIndex + 2)⟩]
      else
        -- Distribute.
        [if w.leaf left.value then ⟨true, true, size / 2, []⟩
          else ⟨false, true, size / 2, ptrs.take (size / 2)⟩,
          if w.leaf right.value then ⟨true, true, size - size / 2, []⟩
          else ⟨false, true, size - size / 2, ptrs.drop (size / 2)⟩,
          ⟨false, w.weight info.parent.value, psize,
            ((w.children info.parent).set info.leftIndex (clean w.fresh)).set info.rightIndex
            (clean (w.fresh + 1))⟩]

-- Nodes numbered from `fresh` on; places of a new node past its pointers hold anything.
def build (w : World) (nodes : List NewNode) : World :=
  { w with
    leaf := fun n => if n < w.fresh then w.leaf n else (nodes[n - w.fresh]?).elim true NewNode.leaf
    weight := fun n => if n < w.fresh then w.weight n else (nodes[n - w.fresh]?).elim true
      NewNode.weight
    size := fun n => if n < w.fresh then w.size n else (nodes[n - w.fresh]?).elim 0 NewNode.size
    slot := fun n i => if n < w.fresh then w.slot n i else (nodes[n - w.fresh]?).elim (clean 0)
      fun node => node.ptrs.getD i (clean 0)
    marked := fun n => if n < w.fresh then w.marked n else false
    lock := fun n => if n < w.fresh then w.lock n else none
    fresh := w.fresh + nodes.length }

def act (w : World) : Act → World
  | .store g i x =>
      { w with slot := Function.update w.slot g.value (Function.update (w.slot g.value) i x) }
  | .mark p => { w with marked := Function.update w.marked p.value true }
  | .unlock p => { w with lock := Function.update w.lock p.value none }

def acquire (w : World) (tid n : Nat) (pc : Pc) : Option World :=
  match w.lock n with
  | none => some ({ w with lock := Function.update w.lock n (some tid) }.goto tid pc)
  | some _ => none

-- Whether a check lets the thread go on.
def passes (degree : Nat) (w : World) : Check → Bool
  | .acquire _ => true
  | .unmarked p => p.elim true fun p => !w.marked p.value
  | .light p => decide (w.size p.value < low degree)
  | .weighed p => w.weight p.value

end World

def swing (g : Word) (i target : Nat) (replaced held : List Word) : List Act :=
  [.store g i (markDirty target), .store g i (clean target)] ++ replaced.map Act.mark ++ held.map
    Act.unlock

def moveStep (degree : Nat) (w : World) (tid : Nat) : Pc → Option World
  | .idle | .start _ | .leaf _ _ => none
  | .at .find _ => none
  | .at .insert info =>
      if w.leaf info.node.value then some (w.goto tid (.lockLeaf .insert info)) else none
  | .at .erase info =>
      if w.leaf info.node.value then some (w.goto tid (.lockLeaf .erase info)) else none
  | .at .cleanup info =>
      if w.weight info.node.value =
        false then some (w.goto tid (.locking (.tag info) (Fix.tag info).checks []))
      else if w.size info.node.value < low degree ∧
        info.node ≠ clean entry then some (w.goto tid (.root info))
      else some (w.goto tid (.next info))
  | .root info =>
      if info.node ≠ w.slot entry 0 then some (w.goto tid (.sibling info))
      else some (w.goto tid (.next info))
  | .next info => if w.leaf info.node.value then some (w.goto tid .idle) else none
  | .sibling info =>
      let fix := Fix.underfull info (w.slot info.parent.value info.siblingIndex)
      some (w.goto tid (.locking fix fix.checks []))
  | .lockLeaf job info => w.acquire tid info.node.value (.leaf job info)
  | .locking _ (.acquire none :: _) _ => none
  | .locking fix (.acquire (some p) :: rest) held =>
      w.acquire tid p.value (.locking fix rest (p :: held))
  | .locking fix (check :: rest) held =>
      if w.passes degree check then some (w.goto tid (.locking fix rest held))
      else some (w.goto tid (.run (held.map Act.unlock) (some fix.again)))
  | .locking fix [] held =>
      match fix.target.1 with
      | none => none
      | some g =>
          let nodes := w.replacement degree fix
          let acts := swing g fix.target.2 (w.fresh + nodes.length - 1) fix.replaced held
          some ((w.build nodes).goto tid (.run acts (some .cleanup)))
  | .run [] none => some (w.goto tid .idle)
  | .run [] (some job) => some (w.goto tid (.start job))
  | .run (act :: rest) after => some ((w.act act).goto tid (.run rest after))

-- readUntilFlushed, one load of it, on a child slot.
def loadStep (w : World) (tid i : Nat) (job : Job) (info : Info) : Option World :=
  if w.leaf info.node.value = false ∧ i < w.size info.node.value then
    if (w.slot info.node.value i).dirty then some w
    else some (w.goto tid (.at job (info.down i (w.slot info.node.value i))))
  else none

def leafStep (degree : Nat) (w : World) (tid : Nat) (present : Bool) (job : Job) (info : Info) :
    Option World :=
  let n := info.node.value
  if w.marked n then some (w.goto tid (.run [.unlock info.node] (some job)))
  else
    match job, present with
    | .insert, false =>
        if w.size n < degree then some ((w.setSize n (w.size n + 1)).goto tid
          (.run [.unlock info.node] none))
        else some (w.goto tid (.locking (.overflow info) (Fix.overflow info).checks [info.node]))
    | .erase, true =>
        some ((w.setSize n (w.size n - 1)).goto tid
          (.run [.unlock info.node] (if w.size n - 1 = low degree - 1 then some .cleanup
            else none)))
    | _, _ => some (w.goto tid (.run [.unlock info.node] none))

def step (degree : Nat) (w : World) : Event → Option World
  | .call tid job =>
      match w.pc tid with
      | .idle => if job = .cleanup then none else some (w.goto tid (.start job))
      | _ => none
  | .load tid i =>
      match w.pc tid with
      | .start job =>
          if (w.slot entry 0).dirty then some w
          else some (w.goto tid (.at job ⟨none, clean entry, 0, w.slot entry 0, 0⟩))
      | .at job info => if job = .cleanup then none else loadStep w tid i job info
      | .next info => loadStep w tid i .cleanup info
      | _ => none
  | .move tid => moveStep degree w tid (w.pc tid)
  | .answer tid =>
      match w.pc tid with
      | .at job info =>
          if job ≠ .cleanup ∧ w.leaf info.node.value then some (w.goto tid .idle) else none
      | _ => none
  | .leaf tid present =>
      match w.pc tid with
      | .leaf job info => leafStep degree w tid present job info
      | _ => none

/-! What a step touches. -/

-- The pointers a replacement reads through.
def Fix.reads : Fix → List (Option Word)
  | .overflow info => [some info.node, some info.parent]
  | .tag info => [some info.node, some info.parent, info.gParent]
  | .underfull info sibling => [some info.node, some info.parent, info.gParent, some sibling]

/-- The pointers a thread locks or dereferences in a step. -/
def touchedAt : Pc → List (Option Word)
  | .idle => []
  | .start _ => [some (clean entry)]
  | .at _ info | .next info | .lockLeaf _ info | .leaf _ info => [some info.node]
  | .root info => [some info.node, some (clean entry)]
  | .sibling info => [some info.parent]
  | .locking _ (.acquire p :: _) _ | .locking _ (.unmarked p :: _) _ => [p]
  | .locking _ (.light p :: _) _ | .locking _ (.weighed p :: _) _ => [some p]
  | .locking fix [] _ => fix.reads
  | .run (.store g _ _ :: _) _ => [some g]
  | .run (.mark p :: _) _ | .run (.unlock p :: _) _ => [some p]
  | .run [] _ => []

def Event.tid : Event → Nat
  | .call tid _ | .load tid _ | .move tid | .answer tid | .leaf tid _ => tid

/-- Only real nodes are touched, fixTagViolation and fixUnderfullViolation are called with
a grandparent, and the sibling slot is one of the parent's. -/
structure Safe (degree : Nat) (w : World) (event : Event) : Prop where
  real : ∀ p ∈ touchedAt (w.pc event.tid), ∃ q, p = some q ∧ q.dirty = false ∧ q.value < w.fresh
  grand : ∀ info, (w.pc event.tid = .at .cleanup info ∧ w.weight info.node.value = false) ∨
    (w.pc event.tid = .root info ∧ info.node ≠ w.slot entry 0) → info.gParent.isSome
  sibling : ∀ info, w.pc event.tid = .sibling info → info.siblingIndex < w.size info.parent.value

/-- The second read of entry->ptrs[0] for a node found there still finds it, and the
sibling slot is not dirty when it is read. -/
def Steady (w : World) (event : Event) : Prop :=
  match w.pc event.tid with
  | .root info => info.parent = clean entry → w.slot entry 0 = info.node
  | .sibling info => (w.slot info.parent.value info.siblingIndex).dirty = false
  | _ => True

instance (w : World) (event : Event) : Decidable (Steady w event) := by
  unfold Steady
  split <;> infer_instance

end SetBench.AbRestructure
