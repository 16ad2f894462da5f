import Mathlib
import SetBench.MapSpec

/-! ABTreeOptik (24-abtree-pm-occ/optik_btree.h) run by one thread at a time. A place of a
leaf whose key is 0 is `none`; the search keys of internal nodes are only copied and left
out. The nodes above a node are its frames, innermost first; above the outermost one is
the entry. -/
namespace SetBench.AbTree

open MapSpec (Op)

variable {K V : Type} [LinearOrder K]

inductive Tree (K V : Type) where
  | leaf (searchKey : K) (size : Nat) (slots : List (Option (K × V)))
  | node (weight : Bool) (keys : List K) (kids : List (Tree K V))

namespace Tree

def weight : Tree K V → Bool
  | .leaf _ _ _ => true
  | .node weight _ _ => weight

def size : Tree K V → Nat
  | .leaf _ size _ => size
  | .node _ _ kids => kids.length

end Tree

-- The constant a; b is the degree.
def low (degree : Nat) : Nat := max (degree / 4) 2

-- A node with one child taken out.
structure Frame (K V : Type) where
  weight : Bool
  keys : List K
  before : List (Tree K V)
  after : List (Tree K V)

def Frame.fill (f : Frame K V) (t : Tree K V) : Tree K V :=
  .node f.weight f.keys (f.before ++ t :: f.after)

def Frame.size (f : Frame K V) : Nat := f.before.length + 1 + f.after.length

def plug : List (Frame K V) → Tree K V → Tree K V
  | [], t => t
  | f :: c, t => plug c (f.fill t)

def childIndex (keys : List K) (k : K) : Nat := (keys.takeWhile fun x => ¬ k < x).length

def down (k : K) : Tree K V → Option (Frame K V × Tree K V)
  | .leaf _ _ _ => none
  | .node weight keys kids =>
      match kids.drop (childIndex keys k) with
      | [] => none
      | child :: after => some (⟨weight, keys, kids.take (childIndex keys k), after⟩, child)

def search (k : K) : Nat → List (Frame K V) → Tree K V → List (Frame K V) × Tree K V
  | 0, c, t => (c, t)
  | fuel + 1, c, t =>
      match down k t with
      | some (f, child) => search k fuel (f :: c) child
      | none => (c, t)

/-! Leaves. -/

def pairs (slots : List (Option (K × V))) : List (K × V) := slots.filterMap id

def lookup (k : K) (slots : List (Option (K × V))) : Option V :=
  ((pairs slots).find? fun x => x.1 = k).map Prod.snd

-- The first place without a key.
def put (k : K) (v : V) : List (Option (K × V)) → List (Option (K × V))
  | [] => []
  | none :: rest => some (k, v) :: rest
  | some x :: rest => some x :: put k v rest

def remove (k : K) (slots : List (Option (K × V))) : List (Option (K × V)) :=
  slots.map fun x => x.filter fun x => x.1 ≠ k

def sorted (xs : List (K × V)) : List (K × V) := xs.insertionSort fun x y => x.1 ≤ y.1

def external (degree : Nat) (searchKey : K) (size : Nat) (xs : List (K × V)) : Tree K V :=
  .leaf searchKey size (xs.map some ++ List.replicate (degree - xs.length) none)

-- Two leaves from a sorted array, with the key between them.
def splitLeaf (degree leftSize rightSize : Nat) (xs : List (K × V)) :
    Option (Tree K V × K × Tree K V) :=
  match xs.head?, xs[leftSize]? with
  | some first, some middle =>
      some (external degree first.1 leftSize (xs.take leftSize), middle.1,
        external degree middle.1 rightSize ((xs.drop leftSize).take rightSize))
  | _, _ => none

-- Two internal nodes from an array of pointers, with the key between them.
def splitNode (keys : List K) (ptrs : List (Tree K V)) : Option (Tree K V × K × Tree K V) :=
  match keys[ptrs.length / 2 - 1]? with
  | some middle =>
      some (.node true (keys.take (ptrs.length / 2 - 1)) (ptrs.take (ptrs.length / 2)), middle,
        .node true (keys.drop (ptrs.length / 2)) (ptrs.drop (ptrs.length / 2)))
  | none => none

/-! Restructuring. -/

-- A new node over two, of weight zero unless it becomes the root.
def pair (c : List (Frame K V)) (halves : Tree K V × K × Tree K V) : Tree K V :=
  .node c.isEmpty [halves.2.1] [halves.1, halves.2.2]

def fixTag (degree : Nat) : List (Frame K V) → Tree K V → Option (Tree K V)
  | f :: c, .node _ keys kids =>
      let ptrs := f.before ++ kids ++ f.after
      let keys := f.keys.take f.before.length ++ keys ++ f.keys.drop f.before.length
      -- Absorb, or Split.
      if f.size + kids.length - 1 ≤ degree then some (plug c (.node true keys ptrs))
      else (splitNode keys ptrs).map fun halves => plug c (pair c halves)
  | _, _ => none

-- The node and its sibling in their order, the children before and after them.
def siblings (f : Frame K V) (t : Tree K V) :
    Option (List (Tree K V) × Tree K V × Tree K V × List (Tree K V)) :=
  match f.before.getLast?, f.after with
  | some sibling, after => some (f.before.dropLast, sibling, t, after)
  | none, sibling :: after => some ([], t, sibling, after)
  | none, [] => none

def sibling (f : Frame K V) : Option (Tree K V) := f.before.getLast?.or f.after.head?

def mergeNodes (degree : Nat) (t : Tree K V) (pivot : K) : Tree K V → Tree K V → Option (Tree K V)
  | .leaf left lsize xs, .leaf _ rsize ys =>
      let searchKey := match t with
        | .leaf searchKey _ _ => searchKey
        | .node _ _ _ => left
      some (external degree searchKey (lsize + rsize) (pairs xs ++ pairs ys))
  | .node _ keys kids, .node _ keys' kids' =>
      some (.node true (keys ++ pivot :: keys') (kids ++ kids'))
  | _, _ => none

def distribute (degree : Nat) (pivot : K) : Tree K V → Tree K V → Option (Tree K V × K × Tree K V)
  | .leaf _ lsize xs, .leaf _ rsize ys =>
      splitLeaf degree ((lsize + rsize) / 2) (lsize + rsize - (lsize + rsize) / 2)
        (sorted (pairs xs ++ pairs ys))
  | .node _ keys kids, .node _ keys' kids' => splitNode (keys ++ pivot :: keys') (kids ++ kids')
  | _, _ => none

def fixUnderfull (degree : Nat) : List (Frame K V) → Tree K V → Option (Tree K V)
  | [], _ => none
  | f :: c, t => do
      let (before, left, right, after) ← siblings f t
      let beside ← sibling f
      let pivot ← f.keys[before.length]?
      if beside.weight = false then none
      else if left.size + right.size < 2 * low degree then
        -- AbsorbSibling, with RootAbsorb.
        let new ← mergeNodes degree t pivot left right
        if c = [] ∧ f.size = 2 then some (plug c new)
        else some (plug c (.node true (f.keys.eraseIdx before.length) (before ++ new :: after)))
      else
        let (newLeft, middle, newRight) ← distribute degree pivot left right
        some (plug c (.node f.weight (f.keys.set before.length middle)
          (before ++ newLeft :: newRight :: after)))

/-- The loop of cleanup, at the node `t` below `c`; a fix starts it again at the root. -/
def cleanup (degree : Nat) (k : K) : Nat → List (Frame K V) → Tree K V → Option (Tree K V)
  | 0, _, _ => none
  | fuel + 1, c, t =>
      if t.weight = false then
        match fixTag degree c t with
        | some root => cleanup degree k fuel [] root
        | none => cleanup degree k fuel [] (plug c t)
      else if t.size < low degree ∧ c.isEmpty = false then
        match fixUnderfull degree c t with
        | some root => cleanup degree k fuel [] root
        | none => cleanup degree k fuel [] (plug c t)
      else
        match down k t with
        | some (f, child) => cleanup degree k fuel (f :: c) child
        | none => some (plug c t)

/-- find: the value, or NO_VALUE. -/
def find (noValue : V) (fuel : Nat) (root : Tree K V) (k : K) : V :=
  match search k fuel [] root with
  | (_, .leaf _ _ slots) => (lookup k slots).getD noValue
  | (_, .node _ _ _) => noValue

def tryInsert (degree : Nat) (noValue : V) (fuel : Nat) (root : Tree K V) (k : K) (v : V) :
    Option (Tree K V × V) :=
  match search k fuel [] root with
  | (c, .leaf searchKey size slots) =>
      match lookup k slots with
      | some old => some (root, old)
      | none =>
          if size < degree then some (plug c (.leaf searchKey (size + 1) (put k v slots)), noValue)
          else
            let tosort := pairs slots ++ [(k, v)]
            match splitLeaf degree (tosort.length / 2) (degree + 1 - tosort.length / 2)
              (sorted tosort) with
            | some halves =>
                (cleanup degree halves.2.1 fuel [] (plug c (pair c halves))).map fun root =>
                (root, noValue)
            | none => none
  | (_, .node _ _ _) => none

-- A search that finds NO_VALUE has not found the key.
def tryErase [DecidableEq V] (degree : Nat) (noValue : V) (fuel : Nat) (root : Tree K V) (k : K) :
    Option (Tree K V × V) :=
  match search k fuel [] root with
  | (c, .leaf searchKey size slots) =>
      match lookup k slots with
      | none => some (root, noValue)
      | some old =>
          if old = noValue then some (root, noValue)
          else if size - 1 = low degree - 1 then
            (cleanup degree searchKey fuel []
              (plug c (.leaf searchKey (size - 1) (remove k slots)))).map fun root => (root, old)
          else some (plug c (.leaf searchKey (size - 1) (remove k slots)), old)
  | (_, .node _ _ _) => none

def call [DecidableEq V] (degree : Nat) (noValue : V) (fuel : Nat) (root : Tree K V) :
    Op K V → Option (Tree K V × V)
  | .insert k v => tryInsert degree noValue fuel root k v
  | .remove k => tryErase degree noValue fuel root k

def runCalls [DecidableEq V] (degree : Nat) (noValue : V) (fuel : Nat) :
    List (Op K V) → Tree K V → Option (Tree K V × List V)
  | [], root => some (root, [])
  | op :: rest, root =>
      match call degree noValue fuel root op with
      | some (next, result) =>
          (runCalls degree noValue fuel rest next).map fun tail => (tail.1, result :: tail.2)
      | none => none

def initial (degree : Nat) (anyKey : K) : Tree K V := external degree anyKey 0 []

end SetBench.AbTree
